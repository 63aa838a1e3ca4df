import Schemata.Proofs.Algebra.Exactness
import Schemata.Proofs.Algebra.Overrides
import Schemata.Proofs.History
import Schemata.Scope

/-! Merges in a session. What the memo answers may have been worked out for an equal pair of objects, so the laws of
overriding hold of merges up to equality, whatever was derived before and in between. -/
namespace Schemata

open Schema

theorem Property.key_of_same {p q : Property Schema} (h : p.same q = true) : p.key = q.key := by
  simp only [same, Bool.and_eq_true, beq_iff_eq] at h
  exact h.1.1

namespace Engine

variable {s : Session} {scope : Option Nat} {base : Schema} {upper : ObjectShape Schema}

/-- What cannot be part of a key is worked out beside the memo. -/
theorem derive_of_changeable {key : DerivedKey} (h : key.changeable?.isSome = true)
    (work : Unit → Except Fault Schema × Bool) (s : Session) :
    (derive key work).run s = ((work ()).1.map fun c => (c, (work ()).2), s) := by
  unfold derive
  rw [if_pos h]
  simp only [run_bind, run_lift]
  cases (work ()).1 <;> rfl

theorem merge_run (scope : Option Nat) (base : Schema) (upper : ObjectShape Schema) (s : Session) :
    (merge scope base (.object upper)).run s =
      let derived := (derive (.merge base upper) fun _ => ((s.env scope).merge base (.object upper), false)).run s
      (derived.1.map Prod.fst, derived.2) := by
  unfold merge
  simp only [run_bind, run_env]
  cases (derive (.merge base upper) fun _ => ((s.env scope).merge base (.object upper), false)).run s with
  | mk outcome t => cases outcome <;> rfl

/-- Overrides that are no object leave the session as it is. -/
theorem merge_keeps_session {overrides : Overrides} (h : ∀ upper, overrides ≠ .object upper) :
    ((merge scope base overrides).run s).2 = s := by
  unfold merge
  simp only [run_bind, run_env]
  cases overrides with
  | object upper => exact absurd rfl (h upper)
  | mapping entries => simp only [run_lift]
  | other subject => simp only [run_lift]

end Engine

/-- Everything that is written in the schemas of a merge is regular. -/
def Call.IsRegular : Call → Prop
  | .intersection _ _ _ => True
  | .merge _ base overrides => base.IsRegular ∧ ∀ upper, overrides = .object upper → (Schema.object upper).IsRegular

namespace Session

variable {s t : Session} {scope : Option Nat} {as : List Arena} {a b c : ObjectShape Schema} {calls : List Call}

theorem Agrees.arenas (h : s.Agrees t) : t.arenas = s.arenas := congrArg Env.arenas (h none)

/-- The keys of merges in the memo are made of what can be part of a key, and what the memo keeps of a merge was worked
out for schemas that are alike those of its key. -/
def RecallsMerges (s : Session) (as : List Arena) : Prop :=
  s.memo.Holds (fun k => ∀ p u, k = .merge p u → p.IsHashable ∧ (Schema.object u).IsHashable) fun k r =>
    ∀ p u, k = .merge p u → ∃ env p' u', env.arenas = as ∧ Alike .keyed p p' ∧
      Alike .keyed (.object u) (.object u') ∧ r = Env.merge env p' (.object u')

theorem same_merge {k : DerivedKey} {p : Schema} (h : (k == DerivedKey.merge p b) = true) :
    ∃ q u, k = .merge q u ∧ q.same p = true ∧ (Schema.object u).same (.object b) = true := by
  cases k with
  | intersection _ _ => exact absurd h Bool.false_ne_true
  | merge q u => exact ⟨q, u, rfl, by simpa [BEq.beq, DerivedKey.same] using h⟩

/-- A key that is not changeable is made of what can be part of a key. -/
theorem hashable_of_key {p : Schema} (hp : p.IsRegular) (hb : (Schema.object b).IsRegular)
    (h : (DerivedKey.merge p b).changeable? = none) : p.IsHashable ∧ (Schema.object b).IsHashable := by
  simp only [DerivedKey.changeable?, Option.or_eq_none_iff] at h
  exact ⟨hp.hashable h.1, hb.hashable h.2⟩

theorem alike_of_key {k : DerivedKey} {p q : Schema} {u : ObjectShape Schema} (hk : (k == DerivedKey.merge p b) = true)
    (hkind : ∀ q u, k = .merge q u → q.IsHashable ∧ (Schema.object u).IsHashable) (hp : p.IsHashable)
    (hb : (Schema.object b).IsHashable) (hqu : k = .merge q u) :
    Alike .keyed q p ∧ Alike .keyed (.object u) (.object b) := by
  obtain ⟨q', u', heq, hqp, hub⟩ := same_merge hk
  obtain ⟨rfl, rfl⟩ := DerivedKey.merge.inj (hqu.symm.trans heq)
  obtain ⟨hq, hu⟩ := hkind q u hqu
  exact ⟨.keyed_of_same hq hp hqp, .keyed_of_same hu hb hub⟩

/-- One more call leaves the environments as they are, and the memo recalls what it should. -/
theorem RecallsMerges.call (h : s.RecallsMerges s.arenas) {call : Call} (hcall : call.IsRegular) :
    s.Agrees (call.run.run s).2 ∧ (call.run.run s).2.RecallsMerges s.arenas := by
  cases call with
  | intersection scope a b =>
    refine Engine.intersection_keeps h nofun ?_
    rintro k - hk p u rfl
    exact absurd hk Bool.false_ne_true
  | merge scope base overrides =>
    obtain ⟨hbase, hupper⟩ := hcall
    cases overrides with
    | mapping entries =>
      rw [Call.run, Engine.merge_keeps_session (by simp)]
      exact ⟨fun _ => rfl, h⟩
    | other subject =>
      rw [Call.run, Engine.merge_keeps_session (by simp)]
      exact ⟨fun _ => rfl, h⟩
    | object upper =>
      rw [Call.run, Engine.merge_run]
      cases hkey : (DerivedKey.merge base upper).changeable? with
      | some kind =>
        rw [Engine.derive_of_changeable (by simp [hkey])]
        exact ⟨fun _ => rfl, h⟩
      | none =>
        obtain ⟨hp, hu⟩ := hashable_of_key hbase (hupper upper rfl) hkey
        refine Engine.derive_keeps _ _ h ?_ fun k hkind hk p u hpu => ?_
        · rintro p u hpu
          obtain ⟨rfl, rfl⟩ := DerivedKey.merge.inj hpu
          exact ⟨hp, hu⟩
        · obtain ⟨hpb, huu⟩ := alike_of_key hk hkind hp hu hpu
          exact ⟨s.env scope, base, upper, rfl, hpb, huu, rfl⟩

/-- After any calls the environments are as they were, and the memo recalls what it should. -/
theorem RecallsMerges.after (h : s.RecallsMerges s.arenas) (hcalls : ∀ c ∈ calls, c.IsRegular) :
    s.Agrees (s.after calls) ∧ (s.after calls).RecallsMerges s.arenas := by
  induction calls generalizing s with
  | nil => exact ⟨fun _ => rfl, h⟩
  | cons c calls ih =>
    rw [List.forall_mem_cons] at hcalls
    obtain ⟨hagrees, hrecalls⟩ := h.call hcalls.1
    obtain ⟨hagrees', hrecalls'⟩ := ih (hagrees.arenas ▸ hrecalls) hcalls.2
    exact ⟨hagrees.trans hagrees', hagrees.arenas ▸ hrecalls'⟩

/-- What a merge of two objects comes to, after calls. -/
def merged (s : Session) (scope : Option Nat) (calls : List Call) (a b : ObjectShape Schema) : Except Fault Schema :=
  ((Engine.merge scope (.object a) (.object b)).run (s.after calls)).1

/-- The object can take part in merges: it can be built as it is, and what is written in it is regular. -/
structure Takes (s : Session) (o : ObjectShape Schema) : Prop where
  stands : (s.env none).Stands o
  regular : (Schema.object o).IsRegular

theorem Takes.of_keyed (h : s.Takes a) (hab : Alike .keyed (.object a) (.object b)) : s.Takes b :=
  ⟨h.stands.alike (fun _ _ => Likeness.keyed_domain) rfl hab, (isRegular_of_keyed hab).mp h.regular⟩

theorem Takes.mergeWith (ha : s.Takes a) (hb : s.Takes b) : s.Takes (a.mergeWith b) :=
  ⟨ha.stands.mergeWith hb.stands, ObjectShape.every_mergeWith (fun _ => List.forall_mem_nil _) ha.regular hb.regular⟩

/-- Objects that stand are merged where they stand. -/
theorem merge_of_stands {env : Env} (h : env.Stands (a.mergeWith b)) :
    env.merge (.object a) (.object b) = .ok (.object (a.mergeWith b)) := h

/-- A merge comes to an object that is alike, as a key, to what the overriding comes to. -/
theorem merged_alike (scope : Option Nat) (hmemo : s.memo.entries = []) (hcalls : ∀ c ∈ calls, c.IsRegular)
    (ha : s.Takes a) (hb : s.Takes b) :
    ∃ o, s.merged scope calls a b = .ok (.object o) ∧ Alike .keyed (.object (a.mergeWith b)) (.object o) := by
  have hstart : s.RecallsMerges s.arenas := fun e he => by simp [hmemo] at he
  obtain ⟨hagrees, hrecalls⟩ := hstart.after hcalls
  have hboth := ha.mergeWith hb
  have harenas : ((s.after calls).env scope).arenas = (s.env none).arenas := hagrees.arenas
  have hanew : ((s.after calls).env scope).merge (.object a) (.object b) = .ok (.object (a.mergeWith b)) :=
    merge_of_stands (hboth.stands.alike (fun _ _ => Likeness.keyed_domain) harenas (.keyed_refl _))
  unfold merged
  rw [Engine.merge_run]
  cases hkey : (DerivedKey.merge (.object a) b).changeable? with
  | some kind =>
    rw [Engine.derive_of_changeable (by simp [hkey]), hanew]
    exact ⟨_, rfl, .keyed_refl _⟩
  | none =>
    obtain ⟨hp, hu⟩ := hashable_of_key ha.regular hb.regular hkey
    obtain ⟨r, hr, hrun⟩ := Engine.derive_outcome (.merge (.object a) b)
      (fun _ => (((s.after calls).env scope).merge (.object a) (.object b), false)) (s.after calls)
    dsimp only
    rw [hrun]
    rcases hr with rfl | ⟨e, he, hequal, houtcome⟩
    · exact ⟨_, hanew, .keyed_refl _⟩
    · obtain ⟨hkind, hkept⟩ := hrecalls e he
      obtain ⟨q, u, hqu, -, -⟩ := same_merge hequal
      obtain ⟨hqa, hub⟩ := alike_of_key hequal hkind hp hu hqu
      obtain ⟨env, p', u', harenas, hqp, huu, rfl⟩ := hkept r houtcome q u hqu
      have halike : Alike .keyed (.object a) p' := hqa.keyed_symm.keyed_trans hqp
      obtain ⟨a', rfl⟩ : ∃ a', p' = .object a' := by
        have := halike.form
        cases p' <;> first | exact ⟨_, rfl⟩ | exact this.elim
      have hmerged := ObjectShape.alike_mergeWith halike (hub.keyed_symm.keyed_trans huu)
      exact ⟨_, merge_of_stands (hboth.stands.alike (fun _ _ => Likeness.keyed_domain) harenas hmerged), hmerged⟩

theorem takes_blank (s : Session) : s.Takes .blank :=
  ⟨rfl, .intro (List.forall_mem_nil _) (List.forall_mem_nil _)⟩

/-- Merges of objects that can be built where they are merged always come to an object, whatever was derived before and
between them. Up to equality, which regards the order of properties, the index signature and the policy, merging is
associative and has the blank object for its unit, and a key names in the merge what it names in the overriding object
if that declares it, else what it names in the other. -/
theorem merges_override (hmemo : s.memo.entries = []) (ha : s.Takes a) (hb : s.Takes b) (hc : s.Takes c)
    {first second third fourth : List Call} (hfirst : ∀ c ∈ first, c.IsRegular) (hsecond : ∀ c ∈ second, c.IsRegular)
    (hthird : ∀ c ∈ third, c.IsRegular) (hfourth : ∀ c ∈ fourth, c.IsRegular) (scope : Option Nat) :
    (∃ ab left bc right, s.merged scope first a b = .ok (.object ab) ∧ s.merged scope second ab c = .ok left ∧
        s.merged scope third b c = .ok (.object bc) ∧ s.merged scope fourth a bc = .ok right ∧
        left.same right = true) ∧
      (∃ o, s.merged scope first a .blank = .ok o ∧ o.same (.object a) = true) ∧
      (∃ o, s.merged scope second .blank a = .ok o ∧ o.same (.object a) = true) ∧
      ∃ ab, s.merged scope first a b = .ok (.object ab) ∧ ∀ key,
        Option.Rel (fun p q => p.same q = true) (ab.property? key)
          (if b.declares key then b.property? key else a.property? key) := by
  obtain ⟨ab, hab, hablike⟩ := merged_alike scope hmemo hfirst ha hb
  refine ⟨?_, ?_, ?_, ab, hab, fun key => ?_⟩
  · obtain ⟨bc, hbc, hbclike⟩ := merged_alike scope hmemo hthird hb hc
    have htakes : s.Takes ab := (ha.mergeWith hb).of_keyed hablike
    have htakes' : s.Takes bc := (hb.mergeWith hc).of_keyed hbclike
    obtain ⟨left, hleft, hleftlike⟩ := merged_alike scope hmemo hsecond htakes hc
    obtain ⟨right, hright, hrightlike⟩ := merged_alike scope hmemo hfourth ha htakes'
    refine ⟨ab, _, bc, _, hab, hleft, hbc, hright, same_of_keyed ?_ ?_⟩
    · have hl := (ObjectShape.alike_mergeWith hablike (.keyed_refl _)).keyed_trans hleftlike
      have hr := (ObjectShape.alike_mergeWith (.keyed_refl _) hbclike).keyed_trans hrightlike
      rw [ObjectShape.mergeWith_assoc] at hl
      exact hl.keyed_symm.keyed_trans hr
    · exact ((ha.mergeWith htakes').of_keyed hrightlike).regular
  · obtain ⟨o, ho, hlike⟩ := merged_alike scope hmemo hfirst ha s.takes_blank
    rw [ObjectShape.mergeWith_blank] at hlike
    exact ⟨_, ho, same_of_keyed hlike.keyed_symm ha.regular⟩
  · obtain ⟨o, ho, hlike⟩ := merged_alike scope hmemo hsecond s.takes_blank ha
    rw [ObjectShape.blank_mergeWith] at hlike
    exact ⟨_, ho, same_of_keyed hlike.keyed_symm ha.regular⟩
  · have hsame := (same_object (same_of_keyed hablike.keyed_symm (ha.mergeWith hb).regular)).1
    have hprops : List.Forall₂ (fun p q => p.same q = true) ab.properties (a.mergeWith b).properties :=
      hsame.imp fun p q h => by simp [Property.same, h]
    have hnamed := ObjectShape.named?_rel (fun _ _ => Property.key_of_same) hprops key
    rw [← ObjectShape.property?_eq, ← ObjectShape.property?_eq, ObjectShape.property?_mergeWith] at hnamed
    have hdeclares : b.declares key = (b.property? key).isSome := ObjectShape.any_key_eq
    rw [hdeclares]
    cases hprop : b.property? key <;> rw [hprop] at hnamed <;> exact hnamed

/-- An object whose property `x` is a zero, of either sign. -/
def zeroObject (negative : Bool) (policy : Policy) : ObjectShape Schema :=
  ⟨[⟨.name "x", .literal (.number (.double (.finite negative 0))), .required⟩], none, policy⟩

theorem takes_zeroObject (negative : Bool) (policy : Policy) :
    Engine.freshSession.Takes (zeroObject negative policy) := by
  refine ⟨rfl, .intro (List.forall_mem_nil _) fun t ht => ?_⟩
  obtain rfl := List.mem_singleton.mp ht
  exact .intro (fun w hw => List.mem_singleton.mp hw ▸ Value.isRegular_of_hashable rfl)
    (List.forall_mem_nil _)

/-- The second merge of zeros answers with the first one's, whose zero has the other sign. -/
theorem merges_override_recalled :
    let before := [Call.merge none (.object (zeroObject true .ignore)) (.object (zeroObject false .reject))]
    Engine.freshSession.merged none before (zeroObject false .ignore) (zeroObject true .reject) =
        .ok (.object (zeroObject false .reject)) ∧
      (∃ ab left bc right,
        Engine.freshSession.merged none before (zeroObject false .ignore) (zeroObject true .reject) = .ok (.object ab) ∧
          Engine.freshSession.merged none [] ab (zeroObject true .delete) = .ok left ∧
          Engine.freshSession.merged none before (zeroObject true .reject) (zeroObject true .delete) =
            .ok (.object bc) ∧
          Engine.freshSession.merged none [] (zeroObject false .ignore) bc = .ok right ∧ left.same right = true) ∧
      ∃ o, Engine.freshSession.merged none before (zeroObject false .ignore) .blank = .ok o ∧
        o.same (.object (zeroObject false .ignore)) = true := by
  intro before
  have hbefore : ∀ c ∈ before, c.IsRegular := by
    intro c hc
    obtain rfl := List.mem_singleton.mp hc
    refine ⟨(takes_zeroObject true .ignore).regular, ?_⟩
    rintro upper ⟨⟩
    exact (takes_zeroObject false .reject).regular
  have hnone : ∀ c ∈ ([] : List Call), c.IsRegular := List.forall_mem_nil _
  obtain ⟨hassoc, hunit, -, -⟩ := merges_override (s := Engine.freshSession) rfl (takes_zeroObject false .ignore)
    (takes_zeroObject true .reject) (takes_zeroObject true .delete) hbefore hnone hbefore hnone none
  exact ⟨rfl, hassoc, hunit⟩

/-- A session with a scope that defines a name. -/
def namingSession : Session := { Engine.freshSession with arenas := [⟨1, [some (.keyword .string)], [("k", 0)]⟩] }

/-- An object whose index key is the name. -/
def namedKey : ObjectShape Schema := ⟨[], some ⟨.ref ⟨1, 0, "k"⟩, .keyword .number⟩, .ignore⟩

/-- An object outlives the scope that its index key refers to, and then no merge with it comes to an object. -/
theorem merge_after_drop :
    (namingSession.env none).makeObject namedKey = .ok (.object namedKey) ∧
      ((Engine.dropScope 1).run namingSession).2.merged none [] namedKey .blank =
        .error (.definition (.lostReference "k")) := ⟨rfl, rfl⟩

end Session
end Schemata
