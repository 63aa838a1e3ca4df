import Schemata.Proofs.Algebra.References
import Schemata.Proofs.History
import Schemata.Proofs.Scope.Arena

/-! Sessions whose arenas are in order. What the memo recalls of an intersection refers to nothing but what its
operands lead to, also after names were given up and others took slots. -/
namespace Schemata
namespace Arenas

variable {as bs : List Arena} {S : Ref → Prop} {l : Limits} {r : Ref} {s t : Schema}

def find? (as : List Arena) (id : Nat) : Option Arena := as.find? fun a => a.id == id

theorem id_of_find {id : Nat} {a : Arena} (h : find? as id = some a) : a.id = id := by
  simpa using List.find?_some h

/-- The reference is that of a name. -/
def Registers (as : List Arena) (r : Ref) : Prop := ∃ a, find? as r.arena = some a ∧ a.Registers r

/-- The reference has a slot. -/
def Reserves (as : List Arena) (r : Ref) : Prop := ∃ a, find? as r.arena = some a ∧ r.handle < a.slots.length

/-- The reference is that of a name of one arena. -/
def Named (as : List Arena) (id : Nat) (r : Ref) : Prop := r.arena = id ∧ Registers as r

/-- Every arena is in order. -/
def Sound (as : List Arena) : Prop := ∀ id a, find? as id = some a → a.Sound

def target (as : List Arena) (r : Ref) : Target :=
  match find? as r.arena with
  | some a => a.target r
  | none => .lost

/-- References of `S` are those of names and lead to schemas whose references are of `S` again. -/
structure Closed (as : List Arena) (S : Ref → Prop) : Prop where
  registers : ∀ r, S r → Registers as r
  leads : ∀ r t, S r → target as r = .filled t → t.Into S

/-- References within the limits are those of names and lead to schemas within the limits. -/
structure Encloses (as : List Arena) (l : Limits) : Prop where
  registers : ∀ r, l.ref r → Registers as r
  leads : ∀ r t, l.ref r → target as r = .filled t → t.Within l

theorem closed_iff_encloses : Closed as S ↔ Encloses as ⟨S, fun _ => True⟩ :=
  ⟨fun h => ⟨h.registers, fun r t hr ht => Schema.into_iff_within.mp (h.leads r t hr ht)⟩,
    fun h => ⟨h.registers, fun r t hr ht => Schema.into_iff_within.mpr (h.leads r t hr ht)⟩⟩

theorem env_target {env : Env} (henv : env.arenas = as) (r : Ref) : env.target r = target as r := by
  unfold Env.target target
  rw [henv]
  rfl

theorem Encloses.env (h : Encloses as l) {env : Env} (henv : env.arenas = as) : env.Confines l := fun r t hr ht =>
  h.leads r t hr (env_target henv r ▸ ht)

theorem target_of_find {a : Arena} (h : find? as r.arena = some a) : target as r = a.target r := by
  simp [target, h]

theorem filled {a : Arena} (h : find? as r.arena = some a) :
    target as r = .filled t ↔ a.slots[r.handle]? = some (some t) := by
  rw [target_of_find h, Arena.target_eq_filled]

theorem Sound.reserves (h : Sound as) (hr : Registers as r) : Reserves as r := by
  obtain ⟨a, ha, hr⟩ := hr
  exact ⟨a, ha, (h _ a ha).lt hr⟩

theorem Encloses.reserves (h : Encloses as l) (hsound : Sound as) (hs : s.Within l) : s.Into (Reserves as) :=
  Schema.into_iff_within.mpr (hs.mono (fun r hr => hsound.reserves (h.registers r hr)) fun _ _ => trivial)

theorem registers_of_arena {a : Arena} {id : Nat} (h : find? as id = some a) (hr : a.Registers r) : Named as id r := by
  have harena : r.arena = id := (Arena.registers_iff.mp hr).1.trans (id_of_find h)
  exact ⟨harena, a, harena ▸ h, hr⟩

theorem named_iff {a : Arena} {id : Nat} (h : find? as id = some a) : Named as id r ↔ a.Registers r := by
  refine ⟨?_, registers_of_arena h⟩
  rintro ⟨rfl, b, hb, hr⟩
  exact Option.some.inj (hb.symm.trans h) ▸ hr

/-- Names of one arena lead to schemas of such names. -/
theorem Sound.closed (h : Sound as) (id : Nat) : Closed as (Named as id) := by
  refine ⟨fun r hr => hr.2, fun r t hr ht => ?_⟩
  obtain ⟨rfl, a, ha, -⟩ := hr
  exact ((h _ a ha).refers r.handle t ((filled ha).mp ht)).mono fun q => registers_of_arena ha

/-- What is registered in the second list and had a slot in the first was registered there, for the same schema. -/
structure Evolves (as bs : List Arena) : Prop where
  reserves : ∀ r, Reserves as r → Reserves bs r
  registers : ∀ r, Registers bs r → Reserves as r → Registers as r
  target : ∀ r t, Registers bs r → Registers as r → target as r = .filled t → target bs r = .filled t

/-- Limits that later references keep to were kept to before, as far as the references were registered. -/
theorem Encloses.before (h : Encloses bs l) (hsound : Sound as) (he : Evolves as bs) :
    Encloses as ⟨fun r => l.ref r ∧ Registers as r, l.key⟩ := by
  refine ⟨fun r hr => hr.2, fun r t hr ht => Schema.Within.into ?_ ?_⟩
  · exact h.leads r t hr.1 (he.target r t (h.registers r hr.1) hr.2 ht)
  · obtain ⟨a, ha, -⟩ := hr.2
    exact ((hsound _ a ha).refers r.handle t ((filled ha).mp ht)).mono fun q hq => (registers_of_arena ha hq).2

end Arenas

namespace Limits

/-- Every key is allowed. -/
def Lenient (key : Schema → Prop) : Prop := ∀ s, key s

/-- Equal keys are allowed or refused alike. -/
def Fair (key : Schema → Prop) : Prop := ∀ s t, Schema.Alike .equality s t → (key s ↔ key t)

theorem Lenient.fair {key : Schema → Prop} (h : Lenient key) : Fair key := fun s t _ => iff_of_true (h s) (h t)

end Limits

namespace DerivedKey

/-- The references of the key's operands have slots. -/
def Reserved (as : List Arena) (k : DerivedKey) : Prop :=
  ∀ p q, k = .intersection p q → p.Into (Arenas.Reserves as) ∧ q.Into (Arenas.Reserves as)

/-- What an intersection came to refers to what its operands lead to. -/
def Refers (as : List Arena) (k : DerivedKey) (r : Except Fault Schema) : Prop :=
  ∀ p q c, k = .intersection p q → r = .ok c → ∀ S, Arenas.Closed as S → p.Into S → q.Into S → c.Into S

/-- What an intersection came to keeps to all limits, with conditions of one class on keys, that its operands and what
they lead to keep to. -/
def Keeps (C : (Schema → Prop) → Prop) (as : List Arena) (k : DerivedKey) (r : Except Fault Schema) : Prop :=
  ∀ p q c, k = .intersection p q → r = .ok c → ∀ l : Limits, C l.key → Arenas.Encloses as l → p.Within l → q.Within l →
    c.Within l

variable {C D : (Schema → Prop) → Prop} {as bs : List Arena} {k : DerivedKey} {r : Except Fault Schema} {a b : Schema}
  {env : Env}

theorem refers_iff_keeps : k.Refers as r ↔ k.Keeps Limits.Lenient as r := by
  refine ⟨fun h p q c hk hr l hl hlimits hp hq => ?_, fun h p q c hk hr S hS hp hq => ?_⟩
  · obtain ⟨S, key⟩ := l
    obtain rfl : key = fun _ => True := funext fun s => eq_true (hl s)
    exact Schema.into_iff_within.mp (h p q c hk hr S (Arenas.closed_iff_encloses.mpr hlimits)
      (Schema.into_iff_within.mpr hp) (Schema.into_iff_within.mpr hq))
  · exact Schema.into_iff_within.mpr (h p q c hk hr _ (fun _ => trivial) (Arenas.closed_iff_encloses.mp hS)
      (Schema.into_iff_within.mp hp) (Schema.into_iff_within.mp hq))

theorem Keeps.mono (h : k.Keeps C as r) (hC : ∀ key, D key → C key) : k.Keeps D as r :=
  fun p q c hk hr l hl => h p q c hk hr l (hC _ hl)

theorem Reserved.evolve (h : k.Reserved as) (he : Arenas.Evolves as bs) : k.Reserved bs := fun p q hk =>
  ⟨(h p q hk).1.mono he.reserves, (h p q hk).2.mono he.reserves⟩

theorem Keeps.evolve (h : k.Keeps C as r) (hk : k.Reserved as) (hsound : Arenas.Sound as) (he : Arenas.Evolves as bs) :
    k.Keeps C bs r := by
  intro p q c hkey hr l hl hlimits hp hq
  obtain ⟨hp', hq'⟩ := hk p q hkey
  have before : ∀ {s : Schema}, s.Within l → s.Into (Arenas.Reserves as) →
      s.Within ⟨fun r => l.ref r ∧ Arenas.Registers as r, l.key⟩ := fun hs hs' =>
    (hs.into hs').mono (fun r hr => ⟨hr.1, he.registers r (hlimits.registers r hr.1) hr.2⟩) fun _ h => h
  exact (h p q c hkey hr ⟨fun r => l.ref r ∧ Arenas.Registers as r, l.key⟩ hl (hlimits.before hsound he) (before hp hp')
    (before hq hq')).mono (fun r hr => hr.1) fun _ h => h

/-- What is worked out for equal operands keeps to the limits of the operands. -/
theorem keeps_intersect (hC : ∀ key, C key → Limits.Fair key) (henv : env.arenas = as)
    (hk : (k == DerivedKey.intersection a b) = true) : k.Keeps C as (env.intersect a b).1 := by
  rintro p q c rfl hr l hl hlimits hp hq
  obtain ⟨p', q', heq, hpa, hqb⟩ := Session.same_intersection hk
  obtain ⟨rfl, rfl⟩ := DerivedKey.intersection.inj heq
  have equal : ∀ {s t : Schema}, s.same t = true → s.Within l → t.Within l := fun h =>
    (Schema.within_of_alike (hC _ hl) (Schema.alike_of_same h)).mp
  exact Env.intersect_within (hlimits.env henv) (equal hpa hp) (equal hqb hq) hr

end DerivedKey

namespace DeferredCheck

/-- The references of an intersection that waits have slots. -/
def Reserved (as : List Arena) (check : DeferredCheck) : Prop :=
  ∀ p q, check = .intersection p q → p.Into (Arenas.Reserves as) ∧ q.Into (Arenas.Reserves as)

end DeferredCheck

namespace Session

variable {s t : Session} {as : List Arena}

/-- The arenas are in order, and what the memo keeps and what waits knows no reference without a slot. -/
structure Tidy (s : Session) : Prop where
  arenas : Arenas.Sound s.arenas
  memo : s.memo.Holds (DerivedKey.Reserved s.arenas) (DerivedKey.Refers s.arenas)
  waiting : ∀ id sc checks, s.scope? id = some sc → sc.waiting = some checks → ∀ c ∈ checks, c.Reserved s.arenas

/-- The arenas are in order, what waits knows no reference without a slot, and neither does what the memo keeps, which
keeps to the limits of its operands. -/
structure Neat (C : (Schema → Prop) → Prop) (s : Session) : Prop where
  arenas : Arenas.Sound s.arenas
  memo : s.memo.Holds (DerivedKey.Reserved s.arenas) (DerivedKey.Keeps C s.arenas)
  waiting : ∀ id sc checks, s.scope? id = some sc → sc.waiting = some checks → ∀ c ∈ checks, c.Reserved s.arenas

variable {C D : (Schema → Prop) → Prop}

theorem tidy_iff_neat : s.Tidy ↔ s.Neat Limits.Lenient := by
  have memo : s.memo.Holds (DerivedKey.Reserved s.arenas) (DerivedKey.Refers s.arenas) ↔
      s.memo.Holds (DerivedKey.Reserved s.arenas) (DerivedKey.Keeps Limits.Lenient s.arenas) := by
    unfold Memo.Holds
    simp only [DerivedKey.refers_iff_keeps]
  exact ⟨fun h => ⟨h.arenas, memo.mp h.memo, h.waiting⟩, fun h => ⟨h.arenas, memo.mpr h.memo, h.waiting⟩⟩

theorem Neat.mono (h : s.Neat C) (hC : ∀ key, D key → C key) : s.Neat D :=
  ⟨h.arenas, fun e he => ⟨(h.memo e he).1, fun r hr => ((h.memo e he).2 r hr).mono hC⟩, h.waiting⟩

/-- Where equal keys are allowed alike, all keys may be. -/
theorem Neat.tidy (h : s.Neat Limits.Fair) : s.Tidy := tidy_iff_neat.mpr (h.mono fun _ => Limits.Lenient.fair)

/-- Arenas may evolve while memo and scopes stay as they are. -/
theorem Neat.evolve (h : s.Neat C) (he : Arenas.Evolves s.arenas as) (has : Arenas.Sound as) :
    { s with arenas := as }.Neat C := by
  refine ⟨has, fun e hentry => ?_, fun id sc checks hsc hchecks c hc p q hpq => ?_⟩
  · obtain ⟨hkey, houtcome⟩ := h.memo e hentry
    exact ⟨hkey.evolve he, fun r hr => (houtcome r hr).evolve hkey h.arenas he⟩
  · obtain ⟨hp, hq⟩ := h.waiting id sc checks hsc hchecks c hc p q hpq
    exact ⟨hp.mono he.reserves, hq.mono he.reserves⟩

theorem Tidy.evolve (h : s.Tidy) (he : Arenas.Evolves s.arenas as) (has : Arenas.Sound as) :
    { s with arenas := as }.Tidy := tidy_iff_neat.mpr ((tidy_iff_neat.mp h).evolve he has)

end Session
end Schemata
