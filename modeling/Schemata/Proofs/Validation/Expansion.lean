import Schemata.Proofs.Schema.Expansion
import Schemata.Proofs.Validation.Depth
import Schemata.Proofs.Validation.Resemblance

/-! Validation through names. Where ranks go down along names, no reference is met while it is followed, and a bound on
the number of references that no rank reaches is never exceeded; so nothing of what a check keeps about references shows
in its outcome. -/
namespace Schemata
namespace Schema

/-- The defaults of a single node are the same in all copies but for the labels of tuples. -/
def NamelessNode : Schema → Prop
  | .object o => ∀ p ∈ o.properties, ∀ d, p.presence = .defaultable d → d.Nameless
  | .tuple es => ∀ e ∈ es, ∀ d, e.role = .defaultable d → d.Nameless
  | _ => True

/-- All defaults in the schema are. -/
def Nameless (s : Schema) : Prop := s.Every NamelessNode

/-- The symbols that the node itself names keep their names, and its defaults satisfy `made`. -/
def KeepsNode (f : Token → Token) (made : Producer → Prop) : Schema → Prop
  | .literal a => a.Keeps f
  | .constrained _ cs => ∀ c ∈ cs, c.Keeps f
  | .object o => ∀ p ∈ o.properties, p.key.recast f = p.key ∧ ∀ d, p.presence = .defaultable d → made d
  | .tuple es => ∀ e ∈ es, ∀ d, e.role = .defaultable d → made d
  | _ => True

theorem Nameless.keeps {s : Schema} (h : s.Nameless) {made : Producer → Prop}
    (hmade : ∀ d : Producer, d.Nameless → made d) :
    s.Every (KeepsNode id made) := by
  refine h.mono fun t ht => ?_
  cases t with
  | literal a => exact fun _ _ => rfl
  | constrained t cs =>
    intro c _
    cases c with
    | equals a => exact fun _ _ => rfl
    | _ => trivial
  | object o => exact fun p hp => ⟨congrFun Key.recast_id _, fun d hd => hmade d (ht p hp d hd)⟩
  | tuple es => exact fun e he d hd => hmade d (ht e he d hd)
  | _ => trivial

variable {env : Env} {config : Config} {follow follow' : Ref → Check} {f : Token → Token} {g : Ref → Schema}
  {A : Visit → Visit → Prop} {S : Ref → Prop} {s : Schema}

theorem checkWith_shape (o : ObjectShape Schema) : (object o).checkWith env config follow =
    .object config env.hooks (Check.ofShape (·.checkWith env config follow) o) := by
  obtain ⟨ps, i, u⟩ := o
  rw [checkWith, propertyChecks_eq]
  cases i <;> rfl

/-- Checks that answer alike can be put in for references. -/
theorem checkWith_replaced (hf : f.Injective) (hhooks : env.hooks.Ignores f) (hA : Visit.Settled A)
    (hfollow : ∀ r, S r → (follow r).Recasts f A ((g r).checkWith env config follow'))
    (hdomains : ∀ t : Schema, t.Into S → env.domains? t = env.domains? (t.replaced g)) (hs : s.Into S)
    (hkeeps : s.Every (KeepsNode f fun d => ∀ visit visit', A visit visit' →
      d.Keeps env.hooks f (visit.depth + 1) (visit'.depth + 1))) :
    (s.checkWith env config follow).Recasts f A ((s.replaced g).checkWith env config follow') := by
  induction s using induction_on_parts with
  | _ s ih =>
    have ih : ∀ t ∈ s.parts, (t.checkWith env config follow).Recasts f A
        ((t.replaced g).checkWith env config follow') := fun t ht => ih t ht (hs.part ht) (hkeeps.part ht)
    cases s with
    | keyword k => exact Check.keyword_recasts k
    | literal a => exact Check.literal_recasts hf hkeeps.root
    | constrained s cs => exact (ih s (List.mem_singleton.mpr rfl)).constrained hf hhooks hkeeps.root
    | union bs =>
      rw [replaced, replacedAll_eq, checkWith, checkWith, branchChecks_eq, branchChecks_eq, List.map_map]
      exact Check.union_recasts ih fun t ht => hdomains t (hs.part ht)
    | intersection ms =>
      rw [replaced, replacedAll_eq, checkWith, checkWith, memberChecks_eq, memberChecks_eq, List.map_map]
      exact Check.conjunction_recasts hA ih
    | ref r => exact hfollow r (into_ref.mp hs)
    | object o =>
      obtain ⟨ps, i, u⟩ := o
      obtain ⟨hps, hi⟩ := List.forall_mem_append.mp ih
      have hshape : Check.ofShape (·.checkWith env config follow')
          ⟨replacedProperties g ps, replacedIndex g i, u⟩ =
            Check.ofShape (fun t => (t.replaced g).checkWith env config follow') ⟨ps, i, u⟩ := by
        simp only [Check.ofShape, replacedProperties_eq, replacedIndex_eq, List.map_map, Option.map_map]
        rfl
      rw [replaced, checkWith_shape, checkWith_shape, hshape]
      refine Check.object_recasts hf hA (fun p hp => (hkeeps.root p hp).1)
        (fun p hp => hps _ (List.mem_map_of_mem hp)) (fun p hp => (hkeeps.root p hp).2) fun j hj => ?_
      obtain rfl : i = some j := hj
      exact ⟨hi j.key (by simp [IndexSignature.parts]), hi j.value (by simp [IndexSignature.parts])⟩
    | tuple es =>
      have helements : Check.ofElements (·.checkWith env config follow') (replacedElements g es) =
          Check.ofElements (fun t => (t.replaced g).checkWith env config follow') es := by
        simp only [Check.ofElements, replacedElements_eq, List.map_map]
        rfl
      rw [replaced, checkWith, checkWith, elementChecks_eq, elementChecks_eq]
      show Check.Recasts f A (Check.tuple _ _ _ (Check.ofElements _ _)) (Check.tuple _ _ _ (Check.ofElements _ _))
      rw [helements]
      exact Check.tuple_recasts hA _ _ (fun e he => ih _ (List.mem_map_of_mem he)) hkeeps.root

end Schema

/-- All references that are being followed have a rank of `b` or more. -/
structure Visit.Above (known : Ref → Prop) (rank : Ref → Nat) (b : Nat) (visit : Visit) : Prop where
  here : ∀ slot ∈ visit.here, ∃ q, known q ∧ (q.arena, q.handle) = slot ∧ b ≤ rank q
  around : ∀ e ∈ visit.around, ∃ q, known q ∧ (q.arena, q.handle) = e.1 ∧ b ≤ rank q

namespace Visit.Above

variable {known : Ref → Prop} {rank : Ref → Nat} {b : Nat} {visit : Visit}

theorem root : Visit.root.Above known rank b := by
  refine ⟨?_, ?_⟩ <;> simp [Visit.root]

theorem renewed (h : visit.Above known rank b) : visit.renewed.Above known rank b := ⟨by simp [Visit.renewed], h.around⟩

/-- A reference of a lower rank is not being followed, and can be followed on any value. -/
theorem enter (h : visit.Above known rank b) {env : Env} (henv : env.Ranked known rank) {r : Ref} (hr : known r)
    (hb : rank r < b) (v : Value) : ∃ inner, visit.enter? r v = some inner ∧ inner.Above known rank (rank r) := by
  have fresh : ∀ q, known q → (q.arena, q.handle) = (r.arena, r.handle) → ¬ b ≤ rank q := by
    intro q hq hslot hle
    rw [henv.slot q r hq hr hslot] at hle
    omega
  have lower : ∀ {slot : Nat × Nat}, (∃ q, known q ∧ (q.arena, q.handle) = slot ∧ b ≤ rank q) →
      ∃ q, known q ∧ (q.arena, q.handle) = slot ∧ rank r ≤ rank q := by
    rintro slot ⟨q, hq, hslot, hle⟩
    exact ⟨q, hq, hslot, by omega⟩
  unfold Visit.enter?
  cases v.identity? with
  | some i =>
    have hnew : visit.around.contains ((r.arena, r.handle), i) = false := by
      rw [← Bool.not_eq_true, List.contains_iff_mem]
      intro hmem
      obtain ⟨q, hq, hslot, hle⟩ := h.around _ hmem
      exact fresh q hq hslot hle
    simp only [hnew]
    exact ⟨_, rfl, fun slot hslot => lower (h.here slot hslot),
      List.forall_mem_cons.mpr ⟨⟨r, hr, rfl, le_rfl⟩, fun e he => lower (h.around e he)⟩⟩
  | none =>
    have hnew : visit.here.contains (r.arena, r.handle) = false := by
      rw [← Bool.not_eq_true, List.contains_iff_mem]
      intro hmem
      obtain ⟨q, hq, hslot, hle⟩ := h.here _ hmem
      exact fresh q hq hslot hle
    simp only [hnew]
    exact ⟨_, rfl, List.forall_mem_cons.mpr ⟨⟨r, hr, rfl, le_rfl⟩, fun slot hslot => lower (h.here slot hslot)⟩,
      fun e he => lower (h.around e he)⟩

end Visit.Above

namespace Env

/-- Two answers of a validation: outputs that are the same but for the labels of tuples, or failures in the same places
under the same codes. -/
def SameAnswer : Except (List Failure) Value → Except (List Failure) Value → Prop
  | .ok v, .ok w => v.Resembles w
  | .error fs, .error gs => Failure.SamePlaces fs gs
  | _, _ => False

namespace Ranked

variable {env : Env} {config : Config} {known : Ref → Prop} {rank : Ref → Nat} {b m n : Nat} {s : Schema}

/-- A check through names answers like the check of the schema without names. -/
theorem checkWithin_expanded (h : env.Ranked known rank) (hhooks : env.hooks.Unlabelled)
    (hstored : ∀ r t, known r → env.target r = .filled t → t.Nameless) (follow : Ref → Check)
    (hs : s.Into fun r => known r ∧ rank r < b) (hnameless : s.Nameless) (hn : b ≤ n) (hm : b ≤ m)
    (hb : b ≤ env.slotCount + 1) :
    (env.checkWithin config n s).Recasts id (fun visit _ => visit.Above known rank b)
      ((env.expanded m s).checkWith env config follow) := by
  have hA : ∀ b, Visit.Settled fun visit _ => visit.Above known rank b := fun b => ⟨Visit.Above.renewed, id⟩
  have hmade : ∀ {b : Nat} {s : Schema}, s.Nameless → s.Every (Schema.KeepsNode id fun d => ∀ visit visit' : Visit,
      visit.Above known rank b → d.Keeps env.hooks id (visit.depth + 1) (visit'.depth + 1)) := fun h =>
    h.keeps fun d hd _ _ _ => hd.keeps env.hooks _ _
  induction n generalizing b m s with
  | zero =>
    rw [checkWithin_eq]
    exact Schema.checkWith_replaced Function.injective_id hhooks.ignores (hA b)
      (fun r hr => absurd hr.2 (by omega)) (fun t ht => h.domains?_expanded ht hm hb) hs (hmade hnameless)
  | succ n ih =>
    rw [checkWithin_eq]
    refine Schema.checkWith_replaced Function.injective_id hhooks.ignores (hA b)
      (fun r hr visit visit' v w hvisit hv => ?_) (fun t ht => h.domains?_expanded ht hm hb) hs (hmade hnameless)
    obtain ⟨hknown, hrank⟩ := hr
    obtain ⟨m, rfl⟩ : ∃ m', m = m' + 1 := Nat.exists_eq_add_of_le' (by omega)
    obtain ⟨t, ht, hinto⟩ := h.filled r hknown
    obtain ⟨inner, hin, hinner⟩ := hvisit.enter h hknown hrank v
    have hres : env.resolve r = .ok t := by simp [resolve, ht]
    simp only [followWithin, expansion, hres, ht, bind, Except.bind, hin]
    exact ih hinto (hstored r t hknown ht) (by omega) (by omega) (by omega) inner visit' v w hinner hv

/-- Validation against a schema and against the schema without names give the same answer. -/
theorem validate_expanded (h : env.Ranked known rank) (hhooks : env.hooks.Unlabelled)
    (hstored : ∀ r t, known r → env.target r = .filled t → t.Nameless)
    (hs : s.Into fun r => known r ∧ rank r < n) (hnameless : s.Nameless) (hdepth : n ≤ config.maxDepth)
    (hslots : n ≤ env.slotCount + 1) (v : Value) :
    Agree (· = ·) SameAnswer (env.validate config s v) (env.validate config (env.expanded n s) v) := by
  unfold validate run check
  rw [checkWithin_eq (s := env.expanded n s)]
  refine (h.checkWithin_expanded hhooks hstored _ hs hnameless hdepth le_rfl hslots .root .root v v .root rfl).map
    fun o p ho => ?_
  rw [← ho.isOk]
  split_ifs
  · exact show Value.Resembles _ _ from Value.recasts_id ▸ ho.output
  · exact show Failure.SamePlaces _ _ from Failure.recastPlaces_id ▸ ho.failures

end Ranked
end Env
end Schemata
