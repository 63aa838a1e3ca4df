import Mathlib.Data.List.ProdSigma
import Schemata.Proofs.Algebra.Growth
import Schemata.Proofs.Schema.Consulting
import Schemata.Proofs.Schema.Hashing
import Schemata.Proofs.Scope.Calls
import Schemata.Proofs.Validation.Domains

/-! The operations on schemas end, also where names lead to one another. Domains follow no name twice. The subset test
and the intersection go behind no pair twice, and between two such steps the schemas get smaller; all pairs are made of
the schemas inside the two given ones and inside the definitions. -/
namespace Schemata
namespace Env

variable {env : Env} {known : Ref → Prop} {a b s t : Schema}

/-- Names that lead to definitions over these names, each slot under one name. -/
structure Filled (env : Env) (known : Ref → Prop) : Prop where
  complete : env.Complete known
  named : ∀ r q, known r → known q → r.arena = q.arena → r.handle = q.handle → r = q

section Domains

/-- A schema whose domains are asked for, inside the names that are being followed. -/
abbrev Asked := List Ref × Schema

/-- A step of working out domains, with its recursive calls left open. -/
def domainsStep (env : Env) (next : Asked → Except Fault (Option DomainSet)) : Asked → Except Fault (Option DomainSet)
  | (seen, s) => s.domainsWith fun r =>
    if seen.contains r then pure none
    else do
      match ← env.resolve? r with
      | none => pure none
      | some t => next (r :: seen, t)

theorem domainsWithin_eq (fuel : Nat) (seen : List Ref) (s : Schema) : env.domainsWithin fuel seen s =
    unroll env.domainsStep (fun c => c.2.domainsWith fun _ => pure none) fuel (seen, s) := by
  have steps : env.domainsWithin fuel =
      fun seen s => unroll env.domainsStep (fun c => c.2.domainsWith fun _ => pure none) fuel (seen, s) := by
    induction fuel with
    | zero => rfl
    | succ fuel ih =>
      funext seen s
      unfold domainsWithin
      rw [ih]
      rfl
  rw [steps]

/-- The domains of the second schema may be asked for while those of the first are worked out. -/
inductive Asks (env : Env) : Asked → Asked → Prop
  | follow {seen : List Ref} {s t : Schema} {r : Ref} : s.Consults r → seen.contains r = false →
      env.target r = .filled t → Asks env (seen, s) (r :: seen, t)

theorem domainsStep_congr {next next' : Asked → Except Fault (Option DomainSet)} (c : Asked)
    (h : ∀ d, env.Asks c d → next d = next' d) : env.domainsStep next c = env.domainsStep next' c := by
  obtain ⟨seen, s⟩ := c
  refine Schema.domainsWith_congr fun r hr => ?_
  split_ifs with hseen
  · rfl
  · unfold resolve?
    cases ht : env.target r with
    | filled t => exact h _ (.follow hr (by simpa using hseen) ht)
    | _ => rfl

/-- The names being followed are known ones, none of them twice. -/
structure Following (known : Ref → Prop) (c : Asked) : Prop where
  nodup : c.1.Nodup
  followed : ∀ r ∈ c.1, known r
  into : c.2.Into known

theorem Following.length_le {c : Asked} (h : Following known c) (hfilled : env.Filled known) :
    c.1.length ≤ env.slotCount := by
  have hnodup : (c.1.map fun r => (r.arena, r.handle)).Nodup := by
    refine h.nodup.map_on fun r hr q hq heq => ?_
    obtain ⟨harena, hhandle⟩ := Prod.mk.inj heq
    exact hfilled.named r q (h.followed r hr) (h.followed q hq) harena hhandle
  have hsub : c.1.map (fun r => (r.arena, r.handle)) ⊆ env.slots := by
    intro slot hslot
    obtain ⟨r, hr, rfl⟩ := List.mem_map.mp hslot
    obtain ⟨t, ht, -⟩ := hfilled.complete r (h.followed r hr)
    exact mem_slots ht
  simpa [length_slots] using (hnodup.subperm hsub).length_le

/-- Every call follows one more of the known names. -/
theorem domains_descends (hfilled : env.Filled known) :
    Descends env.domainsStep (Following known) env.Asks fun c => env.slotCount - c.1.length := by
  have keeps : ∀ c d, Following known c → env.Asks c d → Following known d := by
    rintro c d ⟨hnodup, hfollowed, hinto⟩ ⟨hconsults, hseen, htarget⟩
    rename_i seen s t r
    have hr : known r := hconsults.of_into hinto
    obtain ⟨u, hu, hknown⟩ := hfilled.complete r hr
    obtain rfl := Target.filled.inj (hu.symm.trans htarget)
    refine ⟨List.nodup_cons.mpr ⟨?_, hnodup⟩, List.forall_mem_cons.mpr ⟨hr, hfollowed⟩, hknown⟩
    intro hmem
    rw [List.contains_iff_mem.mpr hmem] at hseen
    cases hseen
  refine ⟨fun c _ _ _ => domainsStep_congr c, keeps, fun c d hc hcall => ?_⟩
  have hlength := (keeps c d hc hcall).length_le hfilled
  cases hcall
  simp only [List.length_cons] at hlength ⊢
  omega

end Domains

section Pairs

/-- Two schemas that can be come to from `a` and `b`, inside different pairs of such. -/
structure Comparing (env : Env) (a b : Schema) (c : Pairing) : Prop where
  left : c.left ∈ env.within a b
  right : c.right ∈ env.within a b
  nodup : c.seen.Nodup
  seen : ∀ p ∈ c.seen, p.1 ∈ env.within a b ∧ p.2 ∈ env.within a b

/-- Room for further pairs, each with all the steps down to the smallest parts, and the steps left in this one. -/
def room (env : Env) (a b : Schema) (c : Pairing) : Nat :=
  (env.reach a b * env.reach a b - c.seen.length) * (2 * env.reach a b + 2) + (c.left.size + c.right.size)

theorem Comparing.start (env : Env) (a b : Schema) : env.Comparing a b ⟨[], a, b⟩ :=
  ⟨mem_within_left env a b, mem_within_right env a b, List.nodup_nil, by simp⟩

theorem Comparing.length_le {c : Pairing} (h : env.Comparing a b c) :
    c.seen.length ≤ env.reach a b * env.reach a b := by
  have hsub : c.seen ⊆ env.within a b ×ˢ env.within a b := fun p hp => List.mem_product.mpr (h.seen p hp)
  simpa [List.length_product, length_within] using (h.nodup.subperm hsub).length_le

theorem Comparing.calls {c d : Pairing} (h : env.Comparing a b c) (hcall : c.Calls env d) : env.Comparing a b d := by
  obtain ⟨hleft, hright, hnodup, hseen⟩ := h
  cases hcall with
  | both hs ht => exact ⟨within_part hleft hs, within_part hright ht, hnodup, hseen⟩
  | swapped hs ht => exact ⟨within_part hright hs, within_part hleft ht, hnodup, hseen⟩
  | left hs => exact ⟨within_part hleft hs, hright, hnodup, hseen⟩
  | right ht => exact ⟨hleft, within_part hright ht, hnodup, hseen⟩
  | behind hhash hpair hs ht =>
    refine ⟨within_behind hleft hs, within_behind hright ht, List.nodup_cons.mpr ⟨fun hmem => ?_, hnodup⟩,
      List.forall_mem_cons.mpr ⟨⟨hleft, hright⟩, hseen⟩⟩
    rw [Schema.pairIn_of_mem hhash hmem] at hpair
    cases hpair

theorem Comparing.room_lt {c d : Pairing} (h : env.Comparing a b c) (hcall : c.Calls env d) :
    env.room a b d < env.room a b c := by
  have hd := h.calls hcall
  unfold room
  cases hcall with
  | both hs ht =>
    have hs := Schema.size_lt_of_part hs
    have ht := Schema.size_lt_of_part ht
    dsimp only
    omega
  | swapped hs ht =>
    have hs := Schema.size_lt_of_part hs
    have ht := Schema.size_lt_of_part ht
    dsimp only
    omega
  | left hs =>
    have hs := Schema.size_lt_of_part hs
    dsimp only
    omega
  | right ht =>
    have ht := Schema.size_lt_of_part ht
    dsimp only
    omega
  | @behind seen s t u w hhash hpair hs ht =>
    -- One pair less fits in, which pays for the parts of the two schemas behind the names.
    have hlength := hd.length_le
    have hleft := size_le_reach hd.left
    have hright := size_le_reach hd.right
    dsimp only at hleft hright ⊢
    rw [List.length_cons] at hlength ⊢
    have hless : env.reach a b * env.reach a b - seen.length =
        env.reach a b * env.reach a b - (seen.length + 1) + 1 := by omega
    rw [hless, Nat.add_mul, Nat.one_mul]
    omega

theorem room_start (env : Env) (a b : Schema) : env.room a b ⟨[], a, b⟩ < env.pairFuel a b := by
  have hleft : a.size + b.size ≤ env.reach a b := by
    unfold reach
    omega
  unfold room pairFuel
  rw [List.length_nil, Nat.sub_zero, Nat.add_mul, Nat.one_mul]
  dsimp only
  omega

/-- The calls of any step that depends on no others descend. -/
theorem pairs_descend {β : Type} {step : (Pairing → β) → Pairing → β}
    (h : ∀ (next next' : Pairing → β) (c : Pairing), (∀ d, c.Calls env d → next d = next' d) →
      step next c = step next' c) :
    Descends step (env.Comparing a b) (Pairing.Calls env) (env.room a b) :=
  ⟨fun c next next' _ => h next next' c, fun _ _ hc hcall => hc.calls hcall, fun _ _ hc hcall => hc.room_lt hcall⟩

variable (env a b) in
theorem isSubset_settles : Settles env.subsetStep (env.pairFuel a b) ⟨[], a, b⟩ (env.isSubset a b) := by
  unfold isSubset
  rw [subsetWithin_eq]
  exact (pairs_descend fun _ _ => subsetStep_congr).settles (.start env a b) (room_start env a b) _

/-- Bound on the nesting of a test that prunes results of the intersection. -/
def pruneFuel (env : Env) (a b : Schema) : Nat :=
  let n := env.storedSize + 2 * growth (env.reach a b) (env.pairFuel a b)
  (n * n + 1) * (2 * n + 2)

theorem pairFuel_le_pruneFuel (hs : s.size ≤ growth (env.reach a b) (env.pairFuel a b))
    (ht : t.size ≤ growth (env.reach a b) (env.pairFuel a b)) : env.pairFuel s t ≤ env.pruneFuel a b := by
  have hreach : env.reach s t ≤ env.storedSize + 2 * growth (env.reach a b) (env.pairFuel a b) := by
    unfold reach at hs ht ⊢
    omega
  exact Nat.mul_le_mul (Nat.succ_le_succ (Nat.mul_le_mul hreach hreach)) (by omega)

/-- A test that is cut off beyond the bound prunes all results as the subset test does. -/
theorem unroll_meetStep_eq {test : Schema → Schema → Except Fault Bool}
    (htest : ∀ s t, s.size ≤ growth (env.reach a b) (env.pairFuel a b) →
      t.size ≤ growth (env.reach a b) (env.pairFuel a b) → test s t = env.isSubset s t) {n : Nat} (hn : n ≤ env.pairFuel a b) {c : Pairing} (hc : env.Comparing a b c) :
    unroll (env.meetStep test) apart n c = env.meetWithin n c.seen c.left c.right := by
  rw [meetWithin_eq]
  induction n generalizing c with
  | zero => simp only [unroll]
  | succ n ih =>
    refine (meetStep_congr c fun d hd => ih (by omega) (hc.calls hd)).trans ?_
    have hgrowth : env.reach a b * growth (env.reach a b) n ≤ growth (env.reach a b) (env.pairFuel a b) := by
      refine le_trans ?_ (growth_mono hn)
      rw [growth_succ]
      exact Nat.mul_le_mul_right _ (by omega)
    refine meetStep_test_congr (fun d hd => ?_) (fun s t hs ht => htest s t (hs.trans hgrowth) (ht.trans hgrowth))
      (size_le_reach hc.left) (size_le_reach hc.right)
    have hbounded := meetWithin_bounded n d.seen (hc.calls hd).left (hc.calls hd).right
    rwa [meetWithin_eq] at hbounded

variable (env a b) in
theorem meetWithin_settles {cut : Pairing → Except Fault Bool} {k : Nat} (hk : env.pruneFuel a b ≤ k) :
    Settles (env.meetStep fun s t => unroll env.subsetStep cut k ⟨[], s, t⟩) (env.pairFuel a b) ⟨[], a, b⟩
      (env.meetWithin (env.pairFuel a b) [] a b) := by
  have htest : ∀ s t, s.size ≤ growth (env.reach a b) (env.pairFuel a b) →
      t.size ≤ growth (env.reach a b) (env.pairFuel a b) → unroll env.subsetStep cut k ⟨[], s, t⟩ = env.isSubset s t :=
    fun s t hs ht => isSubset_settles env s t cut k ((pairFuel_le_pruneFuel hs ht).trans hk)
  rw [← unroll_meetStep_eq htest le_rfl (.start env a b)]
  exact (pairs_descend fun _ _ => meetStep_congr).settles (.start env a b) (room_start env a b) _

end Pairs

/-- The operations end on definitions that lead to one another in any way, also to nothing but one another. Domains are
worked out within as many nested calls as there are slots; the subset test and the intersection within a number of calls
that the number of schemas inside `a`, `b` and the definitions gives, and so do the tests by which the intersection prunes
the unions that it puts together. -/
theorem algebra_settles (hfilled : env.Filled known) (ha : a.Into known) :
    Settles env.domainsStep (env.slotCount + 1) ([], a) (env.domains? a) ∧
      Settles env.subsetStep (env.pairFuel a b) ⟨[], a, b⟩ (env.isSubset a b) ∧
      ∀ cut k, env.pruneFuel a b ≤ k → ∃ met : Compose Schema,
        Settles (env.meetStep fun s t => unroll env.subsetStep cut k ⟨[], s, t⟩) (env.pairFuel a b) ⟨[], a, b⟩ met ∧
          met.run false = env.intersect a b := by
  refine ⟨?_, isSubset_settles env a b, fun cut k hk => ⟨_, meetWithin_settles env a b hk, rfl⟩⟩
  unfold domains?
  rw [domainsWithin_eq]
  refine (domains_descends hfilled).settles ⟨List.nodup_nil, by simp, ha⟩ ?_ _
  simp

/-- Two names for one another, beside a name for trees. -/
theorem algebra_settles_circles :
    let names : List Ref := [⟨1, 0, "a"⟩, ⟨1, 1, "b"⟩, ⟨1, 2, "tree"⟩]
    let known : Ref → Prop := (· ∈ names)
    let a : Schema := .ref ⟨1, 0, "a"⟩
    let b : Schema := .union [.ref ⟨1, 1, "b"⟩, .array (.ref ⟨1, 2, "tree"⟩)]
    circles.Filled known ∧ a.Into known ∧ circles.slotCount = 3 ∧ circles.pairFuel a b = 2928 ∧
      Settles circles.domainsStep (circles.slotCount + 1) ([], a) (circles.domains? a) ∧
      Settles circles.subsetStep (circles.pairFuel a b) ⟨[], a, b⟩ (circles.isSubset a b) ∧
      ∀ cut k, circles.pruneFuel a b ≤ k → ∃ met : Compose Schema,
        Settles (circles.meetStep fun s t => unroll circles.subsetStep cut k ⟨[], s, t⟩) (circles.pairFuel a b)
            ⟨[], a, b⟩ met ∧
          met.run false = circles.intersect a b := by
  intro names known a b
  have hfilled : circles.Filled known := by
    constructor
    · simp only [Complete, known, names, List.forall_mem_cons]
      exact ⟨⟨_, rfl, by simp⟩, ⟨_, rfl, by simp⟩, ⟨_, rfl, by simp⟩, by simp⟩
    · have hnamed : ∀ r ∈ names, ∀ q ∈ names, r.arena = q.arena → r.handle = q.handle → r = q := by decide
      exact fun r q hr hq => hnamed r hr q hq
  have ha : a.Into known := by simp [a, known, names]
  exact ⟨hfilled, ha, rfl, by decide, algebra_settles hfilled ha⟩

end Env

/-- Between calls every name of a session has its schema, and its slot to itself. -/
theorem Session.Settled.filled {s : Session} (h : s.Settled) (scope : Option Nat) :
    (s.env scope).Filled (Arenas.Registers s.arenas) := by
  refine ⟨fun r hr => ?_, fun r q hr hq harena hhandle => ?_⟩
  · obtain ⟨a, ha, hreg⟩ := hr
    obtain ⟨t, ht⟩ := h.full _ a ha r hreg
    rw [← Arenas.target_of_find ha] at ht
    refine ⟨t, (Arenas.env_target rfl r).trans ht, ?_⟩
    exact ((h.tidy.arenas.closed r.arena).leads r t ⟨rfl, a, ha, hreg⟩ ht).mono fun _ hq => hq.2
  · obtain ⟨a, ha, hr⟩ := hr
    obtain ⟨b, hb, hq⟩ := hq
    obtain rfl := Option.some.inj (ha.symm.trans (harena ▸ hb))
    have hsound := h.tidy.arenas _ a ha
    have hname := hsound.name_unique (hsound.mem hr) (hhandle ▸ hsound.mem hq)
    cases r
    cases q
    simp_all

end Schemata
