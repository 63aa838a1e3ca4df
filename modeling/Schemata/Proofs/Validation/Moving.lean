import Schemata.Proofs.Schema.Moving
import Schemata.Proofs.Validation.Agreement

/-! Checks of schemas whose references were moved. A check tells slots apart and looks at them in no other way, so
with every slot in another place it answers as before. -/
namespace Schemata

variable {m : Moving} {n : Nat}

namespace Visit

/-- The surroundings with the slots in other places. -/
def moved (m : Moving) (visit : Visit) : Visit :=
  { visit with here := visit.here.map m.slot, around := visit.around.map fun e => (m.slot e.1, e.2) }

theorem enter?_moved (visit : Visit) (r : Ref) (v : Value) :
    (visit.moved m).enter? (r.moved m) v = (visit.enter? r v).map (moved m) := by
  have hslot : ((r.moved m).arena, (r.moved m).handle) = m.slot (r.arena, r.handle) := rfl
  unfold enter?
  rw [hslot]
  cases v.identity? with
  | some identity =>
    have hmem : (visit.moved m).around.contains (m.slot (r.arena, r.handle), identity) =
        visit.around.contains ((r.arena, r.handle), identity) := by
      simp [moved, m.injective.eq_iff]
    dsimp only
    rw [hmem]
    split_ifs <;> rfl
  | none =>
    have hmem : (visit.moved m).here.contains (m.slot (r.arena, r.handle)) =
        visit.here.contains (r.arena, r.handle) := by
      simp [moved, m.injective.eq_iff]
    dsimp only
    rw [hmem]
    split_ifs <;> rfl

end Visit

namespace Check

/-- The second check answers like the first with the slots in other places. -/
def Moves (m : Moving) (c d : Check) : Prop := ∀ visit v, d (visit.moved m) v = c visit v

section Parts

variable {c d : Check} {hooks : Hooks} {config : Config}

theorem Moves.inside (h : c.Moves m d) (s : Segment) (visit : Visit) (v : Value) :
    d.inside s (visit.moved m) v = c.inside s visit v :=
  congrArg (Except.map (Outcome.within s)) (h visit.renewed v)

theorem Moves.constrained (h : c.Moves m d) (cs : List Constraint) :
    (Check.constrained hooks c cs).Moves m (.constrained hooks d cs) := by
  intro visit v
  unfold Check.constrained
  rw [h visit v]

theorem conjunction_moves {cs ds : List Check} (h : List.Forall₂ (Moves m) cs ds) :
    (conjunction cs).Moves m (conjunction ds) := by
  induction h with
  | nil => exact fun _ _ => rfl
  | cons hc _ ih =>
    intro visit v
    unfold conjunction
    rw [hc visit v]
    refine congrArg _ (funext fun o => ?_)
    rw [← ih]
    split_ifs <;> rfl

theorem Moves.default (h : c.Moves m d) (p : Producer) (s : Segment) (visit : Visit) :
    d.default config hooks (p.moved n) s (visit.moved m) = c.default config hooks p s visit := by
  refine congrArg _ (funext fun v => ?_)
  rw [h.inside]

end Parts

section Union

variable {S : Ref → Prop} {domains domains' : Schema → Except Fault (Option DomainSet)} {bs cs : List (Schema × Check)}

/-- A branch and the moved one. -/
def BranchMoves (m : Moving) (n : Nat) (b c : Schema × Check) : Prop := c.1 = b.1.moved m n ∧ b.2.Moves m c.2

theorem firstAccepting_moved (h : List.Forall₂ (BranchMoves m n) bs cs) (visit : Visit) (v : Value) :
    firstAccepting (visit.moved m) v cs =
      (firstAccepting visit v bs).map (Sum.map id (List.map fun a => (a.1.moved m n, a.2))) := by
  induction h with
  | nil => rfl
  | @cons b c bs cs hbc _ ih =>
    obtain ⟨s, c₁⟩ := b
    obtain ⟨_, c₂⟩ := c
    obtain ⟨rfl, hmoves⟩ : _ = s.moved m n ∧ c₁.Moves m c₂ := hbc
    unfold firstAccepting
    rw [hmoves visit v, ih]
    cases c₁ visit v with
    | error e => rfl
    | ok o =>
      show (if o.isOk then _ else _) = Except.map _ (if o.isOk then _ else _)
      split_ifs
      · rfl
      · cases firstAccepting visit v bs with
        | error e => rfl
        | ok r => cases r <;> rfl

theorem matching_moved (d : Domain) {attempts : List (Schema × List Failure)}
    (h : ∀ a ∈ attempts, domains' (a.1.moved m n) = domains a.1) :
    matching domains' d (attempts.map fun a => (a.1.moved m n, a.2)) = matching domains d attempts := by
  induction attempts with
  | nil => rfl
  | cons a attempts ih =>
    obtain ⟨ha, hattempts⟩ := List.forall_mem_cons.mp h
    rw [List.map_cons]
    unfold matching
    dsimp only
    rw [ha, ih hattempts]

/-- What was tried in vain are branches. -/
theorem firstAccepting_attempts {attempts : List (Schema × List Failure)} {visit : Visit} {v : Value}
    (h : firstAccepting visit v bs = .ok (.inr attempts)) : ∀ a ∈ attempts, ∃ b ∈ bs, b.1 = a.1 := by
  induction bs generalizing attempts with
  | nil =>
    obtain rfl := Sum.inr.inj (Except.ok.inj h)
    simp
  | cons b bs ih =>
    obtain ⟨s, c⟩ := b
    unfold firstAccepting at h
    obtain ⟨o, -, h⟩ := bind_ok h
    split_ifs at h
    · cases h
    · obtain ⟨r, hr, h⟩ := bind_ok h
      cases r with
      | inl accepted => cases h
      | inr rest =>
        obtain rfl := Sum.inr.inj (Except.ok.inj h)
        refine List.forall_mem_cons.mpr ⟨⟨_, List.mem_cons_self, rfl⟩, fun a ha => ?_⟩
        obtain ⟨b, hb, heq⟩ := ih hr a ha
        exact ⟨b, List.mem_cons_of_mem _ hb, heq⟩

theorem union_moves (h : List.Forall₂ (BranchMoves m n) bs cs)
    (hdomains : ∀ b ∈ bs, domains' (b.1.moved m n) = domains b.1) : (union domains bs).Moves m (union domains' cs) := by
  intro visit v
  have htext : (Schema.union (cs.map (·.1))).expression = (Schema.union (bs.map (·.1))).expression := by
    have hcs : cs.map (·.1) = (bs.map (·.1)).map (Schema.moved m n) := by
      rw [List.map_map, ← List.forall₂_eq_eq_eq, List.forall₂_map_left_iff, List.forall₂_map_right_iff]
      exact h.flip.imp fun _ _ hbc => hbc.1
    rw [hcs, ← Schema.moved_union, Schema.expression_moved]
  unfold union
  rw [firstAccepting_moved h, htext]
  cases hfirst : firstAccepting visit v bs with
  | error e => rfl
  | ok r =>
    cases r with
    | inl accepted => rfl
    | inr attempts =>
      show (do let x ← matching domains' v.domain (attempts.map _); _) = (do let x ← matching domains v.domain attempts; _)
      rw [matching_moved v.domain fun a ha => ?_]
      obtain ⟨b, hb, heq⟩ := firstAccepting_attempts hfirst a ha
      exact heq ▸ hdomains b hb

end Union

section Containers

variable {config : Config} {hooks : Hooks} {es : List Entry}

/-- A property's check and that of the moved property. -/
structure PropertyMoves (m : Moving) (n : Nat) (p q : Property Check) : Prop where
  key : q.key = p.key
  presence : q.presence = p.presence.moved n
  value : p.value.Moves m q.value

theorem property_moved {p q : Property Check} (h : PropertyMoves m n p q) (visit : Visit) :
    property config hooks (visit.moved m) es q = property config hooks visit es p := by
  obtain ⟨key, c, presence⟩ := p
  obtain ⟨key', d, presence'⟩ := q
  obtain ⟨rfl, rfl, hmoves⟩ : key' = key ∧ presence' = presence.moved n ∧ c.Moves m d := ⟨h.key, h.presence, h.value⟩
  have hgiven : given? config es ⟨key', d, presence.moved n⟩ = given? config es ⟨key', c, presence⟩ := by
    unfold given?
    rw [Presence.moved_isOptional]
  unfold property
  rw [hgiven]
  cases given? config es ⟨key', c, presence⟩ with
  | some e => exact congrArg (Except.map (Rebuilt.item key')) (hmoves.inside _ _ _)
  | none =>
    cases presence with
    | required => rfl
    | optional => rfl
    | defaultable producer => exact congrArg (Except.map (Rebuilt.item key')) (hmoves.default producer _ _)

theorem properties_moved {ps qs : List (Property Check)} (h : List.Forall₂ (PropertyMoves m n) ps qs) (visit : Visit) :
    properties config hooks (visit.moved m) es qs = properties config hooks visit es ps := by
  induction h with
  | nil => rfl
  | cons hpq _ ih =>
    unfold properties
    rw [property_moved hpq, ih]

/-- The checks of an object's parts and those of the moved parts. -/
structure ShapeMoves (m : Moving) (n : Nat) (s t : ObjectShape Check) : Prop where
  properties : List.Forall₂ (PropertyMoves m n) s.properties t.properties
  index : Option.Rel (fun i j : IndexSignature Check => i.key.Moves m j.key ∧ i.value.Moves m j.value) s.index t.index
  undeclared : t.undeclared = s.undeclared

theorem ShapeMoves.declares {s t : ObjectShape Check} (h : ShapeMoves m n s t) (key : Key) :
    t.declares key = s.declares key := by
  have any_eq : ∀ {ps qs : List (Property Check)}, List.Forall₂ (PropertyMoves m n) ps qs →
      (qs.any fun q => q.key == key) = ps.any fun p => p.key == key := by
    intro ps qs hpq
    induction hpq with
    | nil => rfl
    | cons hpq _ ih => simp only [List.any_cons, hpq.key, ih]
  exact any_eq h.properties

theorem undeclared_moved {s t : ObjectShape Check} (h : ShapeMoves m n s t) (visit : Visit) (e : Entry) :
    undeclared t (visit.moved m) e = undeclared s visit e := by
  have hundeclared := h.undeclared
  have hindex := h.index
  unfold undeclared indexTakes
  rw [hundeclared]
  generalize s.index = i at hindex ⊢
  generalize t.index = j at hindex ⊢
  cases hindex with
  | none => rfl
  | @some i j hij =>
    obtain ⟨hkey, hvalue⟩ := hij
    have htakes : j.key.accepts (visit.moved m).renewed e.key.toValue = i.key.accepts visit.renewed e.key.toValue :=
      congrArg (Except.map Outcome.isOk) (hkey visit.renewed _)
    dsimp only
    rw [htakes]
    cases i.key.accepts visit.renewed e.key.toValue with
    | error e => rfl
    | ok b =>
      cases b with
      | false => rfl
      | true => exact congrArg (Except.map (Rebuilt.item e.key)) (hvalue.inside _ _ _)

theorem undeclaredAll_moved {s t : ObjectShape Check} (h : ShapeMoves m n s t) (visit : Visit) :
    undeclaredAll t (visit.moved m) es = undeclaredAll s visit es := by
  induction es with
  | nil => rfl
  | cons e es ih =>
    unfold undeclaredAll
    rw [h.declares, undeclared_moved h, ih]

theorem object_moves {s t : ObjectShape Check} (h : ShapeMoves m n s t) :
    (object config hooks s).Moves m (object config hooks t) := by
  intro visit v
  unfold object
  cases v.entries? with
  | none => rfl
  | some raw =>
    dsimp only
    rw [properties_moved h.properties, undeclaredAll_moved h]

/-- An element's check and that of the moved element. -/
structure ElementMoves (m : Moving) (n : Nat) (e f : Element Check) : Prop where
  role : f.role = e.role.moved n
  value : e.value.Moves m f.value

theorem fixedElements_moved {es fs : List (Element Check)} (h : List.Forall₂ (ElementMoves m n) es fs) (visit : Visit)
    (i : Nat) (items : List Value) :
    fixedElements config hooks (visit.moved m) i fs items = fixedElements config hooks visit i es items := by
  induction h generalizing i items with
  | nil => cases items <;> rfl
  | @cons e f es fs hef _ ih =>
    cases items with
    | cons v vs =>
      unfold fixedElements
      rw [hef.value.inside, ih]
    | nil =>
      unfold fixedElements
      rw [hef.role]
      cases e.role with
      | defaultable producer =>
        dsimp only [Role.moved]
        rw [hef.value.default, ih]
      | _ => rfl

theorem repeatedElement_moved {c d : Check} (h : c.Moves m d) (visit : Visit) (i : Nat) (items : List Value) :
    repeatedElement d (visit.moved m) i items = repeatedElement c visit i items := by
  induction items generalizing i with
  | nil => rfl
  | cons v vs ih =>
    unfold repeatedElement
    rw [h.inside, ih]

theorem trailingElements_moved {es fs : List (Element Check)} (h : List.Forall₂ (ElementMoves m n) es fs) (visit : Visit)
    (i : Nat) (items : List Value) : trailingElements (visit.moved m) i fs items = trailingElements visit i es items := by
  induction h generalizing i items with
  | nil => rfl
  | cons hef _ ih =>
    cases items with
    | nil => rfl
    | cons v vs =>
      unfold trailingElements
      rw [hef.value.inside, ih]

section Parts

variable {es fs : List (Element Check)} (h : List.Forall₂ (ElementMoves m n) es fs)
include h

theorem filter_moved (p : Nat → Bool) : List.Forall₂ (ElementMoves m n) (es.filter fun e => p e.role.rank)
    (fs.filter fun f => p f.role.rank) := by
  refine List.rel_filter (R := ElementMoves m n) ?_ h
  intro e f hef
  simp [hef.role]

theorem variadic?_moved : Option.Rel (ElementMoves m n) (Element.variadic? es) (Element.variadic? fs) := by
  induction h with
  | nil => exact .none
  | @cons e f es fs hef _ ih =>
    simp only [Element.variadic?, List.find?_cons] at ih ⊢
    rw [hef.role, Role.moved_isVariadic]
    cases e.role.isVariadic
    · exact ih
    · exact .some hef

theorem elements_moved (visit : Visit) (items : List Value) :
    elements config hooks fs (visit.moved m) items = elements config hooks es visit items := by
  have hfixed : List.Forall₂ (ElementMoves m n) (Element.fixed es) (Element.fixed fs) := filter_moved h fun k => k < 3
  have htrailing : List.Forall₂ (ElementMoves m n) (Element.trailing es) (Element.trailing fs) :=
    filter_moved h fun k => k == 4
  have hvariadic := variadic?_moved h
  unfold elements
  dsimp only
  rw [← hfixed.length_eq, ← htrailing.length_eq, fixedElements_moved hfixed]
  generalize Element.variadic? es = e at hvariadic ⊢
  generalize Element.variadic? fs = f at hvariadic ⊢
  cases hvariadic with
  | none => rfl
  | some hef =>
    dsimp only
    rw [repeatedElement_moved hef.value, trailingElements_moved htrailing]

theorem leastLength_moved : Element.leastLength fs = Element.leastLength es := by
  unfold Element.leastLength
  induction h with
  | nil => rfl
  | cons hef _ ih => simp [List.countP_cons, hef.role, ih]

theorem greatestLength?_moved : Element.greatestLength? fs = Element.greatestLength? es := by
  have hany : (fs.any fun f => f.role.isVariadic) = es.any fun e => e.role.isVariadic := by
    induction h with
    | nil => rfl
    | cons hef _ ih => simp [hef.role, ih]
  unfold Element.greatestLength?
  rw [hany, h.length_eq]

theorem tuple_moves (shape : List (Element Schema)) :
    (tuple config hooks shape es).Moves m (tuple config hooks (shape.map (Element.moved m n)) fs) := by
  intro visit v
  have hfits : ∀ k, lengthFits fs k = lengthFits es k := fun k => by
    unfold lengthFits
    rw [leastLength_moved h, greatestLength?_moved h]
  have hdescribed : Element.describedLength fs = Element.describedLength es := by
    unfold Element.describedLength
    rw [leastLength_moved h, greatestLength?_moved h]
  unfold tuple
  rw [← Schema.moved_tuple, Schema.expression_moved, hdescribed]
  cases v.items? with
  | none => rfl
  | some pair =>
    dsimp only
    rw [hfits, elements_moved h]

end Parts
end Containers
end Check

/-- What stands in the slots of the second environment are the schemas of the first with their references moved, as far
as references of `S` lead. -/
structure Env.Moves (m : Moving) (S : Ref → Prop) (env env' : Env) : Prop where
  hooks : env'.hooks = env.hooks
  slots : env'.slotCount = env.slotCount
  lost : ∀ r, S r → env.target r = .lost → env'.target (r.moved m) = .lost
  pending : ∀ r, S r → env.target r = .pending → env'.target (r.moved m) = .pending
  filled : ∀ r s, S r → env.target r = .filled s → s.Into S ∧ ∃ n, env'.target (r.moved m) = .filled (s.moved m n)

namespace Env.Moves

variable {S : Ref → Prop} {env env' : Env} {s : Schema}

theorem domainsWithin (h : Moves m S env env') (fuel : Nat) (seen : List Ref) (hs : s.Into S) :
    env'.domainsWithin fuel (seen.map (Ref.moved m)) (s.moved m n) = env.domainsWithin fuel seen s := by
  induction fuel generalizing n seen s with
  | zero => exact Schema.domainsWith_moved (fun _ _ => rfl) hs
  | succ fuel ih =>
    refine Schema.domainsWith_moved (fun r hr => ?_) hs
    have hseen : (seen.map (Ref.moved m)).contains (r.moved m) = seen.contains r := by
      rw [Bool.eq_iff_iff]
      simp [Ref.moved_inj]
    rw [hseen]
    unfold Env.resolve?
    cases htarget : env.target r with
    | lost => rw [h.lost r hr htarget]; rfl
    | pending => rw [h.pending r hr htarget]; rfl
    | filled t =>
      obtain ⟨ht, k, hmoved⟩ := h.filled r t hr htarget
      rw [hmoved]
      split_ifs
      · rfl
      · exact ih (r :: seen) ht

theorem domains? (h : Moves m S env env') (hs : s.Into S) : env'.domains? (s.moved m n) = env.domains? s := by
  unfold Env.domains?
  rw [h.slots]
  exact h.domainsWithin (env.slotCount + 1) [] hs

/-- A schema is checked as before when its references are. -/
theorem checkWith (h : Moves m S env env') (config : Config) {follow follow' : Ref → Check}
    (hfollow : ∀ r, S r → (follow r).Moves m (follow' (r.moved m))) (hs : s.Into S) :
    (s.checkWith env config follow).Moves m ((s.moved m n).checkWith env' config follow') := by
  induction s using Schema.induction_on_parts with
  | _ s ih =>
    have ih : ∀ t ∈ s.parts, (t.checkWith env config follow).Moves m ((t.moved m n).checkWith env' config follow') :=
      fun t ht => ih t ht (hs.part ht)
    cases s with
    | keyword k => exact fun _ _ => rfl
    | literal v => exact fun _ _ => rfl
    | constrained s cs =>
      rw [Schema.moved_constrained, Schema.checkWith, Schema.checkWith, h.hooks]
      exact (ih s (List.mem_singleton_self s)).constrained cs
    | union bs =>
      rw [Schema.moved_union, Schema.checkWith, Schema.checkWith, Schema.branchChecks_eq, Schema.branchChecks_eq,
        List.map_map]
      refine Check.union_moves (n := n) ?_ ?_
      · rw [List.forall₂_map_left_iff, List.forall₂_map_right_iff]
        exact List.forall₂_same.mpr fun b hb => ⟨rfl, ih b hb⟩
      · exact List.forall_mem_map.mpr fun b hb => h.domains? (hs.part hb)
    | intersection ms =>
      rw [Schema.moved_intersection, Schema.checkWith, Schema.checkWith, Schema.memberChecks_eq, Schema.memberChecks_eq,
        List.map_map]
      refine Check.conjunction_moves ?_
      rw [List.forall₂_map_left_iff, List.forall₂_map_right_iff]
      exact List.forall₂_same.mpr ih
    | ref r => exact hfollow r (Schema.into_ref.mp hs)
    | object o =>
      obtain ⟨ps, i, u⟩ := o
      rw [Schema.moved_object, ObjectShape.moved, Schema.checkWith, Schema.checkWith, Schema.propertyChecks_eq,
        Schema.propertyChecks_eq, List.map_map, h.hooks]
      refine Check.object_moves (n := n) ⟨?_, ?_, rfl⟩
      · rw [List.forall₂_map_left_iff, List.forall₂_map_right_iff]
        exact List.forall₂_same.mpr fun p hp =>
          ⟨rfl, rfl, ih p.value (List.mem_append_left _ (List.mem_map_of_mem hp))⟩
      · cases i with
        | none => exact .none
        | some i =>
          refine .some ⟨ih i.key (List.mem_append_right _ List.mem_cons_self), ih i.value (List.mem_append_right _ ?_)⟩
          exact List.mem_cons_of_mem _ (List.mem_singleton_self _)
    | tuple es =>
      rw [Schema.moved_tuple, Schema.checkWith, Schema.checkWith, Schema.elementChecks_eq, Schema.elementChecks_eq,
        List.map_map, h.hooks]
      refine Check.tuple_moves (n := n) ?_ es
      rw [List.forall₂_map_left_iff, List.forall₂_map_right_iff]
      exact List.forall₂_same.mpr fun e he => ⟨rfl, ih e.value (List.mem_map_of_mem he)⟩

theorem checkWithin (h : Moves m S env env') (config : Config) (remaining : Nat) (hs : s.Into S) :
    (env.checkWithin config remaining s).Moves m (env'.checkWithin config remaining (s.moved m n)) := by
  induction remaining generalizing n s with
  | zero => exact h.checkWith config (fun _ _ _ _ => rfl) hs
  | succ remaining ih =>
    refine h.checkWith config (fun r hr visit v => ?_) hs
    rw [Visit.enter?_moved]
    unfold Env.resolve
    cases htarget : env.target r with
    | lost => rw [h.lost r hr htarget]; rfl
    | pending => rw [h.pending r hr htarget]; rfl
    | filled t =>
      obtain ⟨ht, k, hmoved⟩ := h.filled r t hr htarget
      rw [hmoved]
      cases visit.enter? r v with
      | none => rfl
      | some visit => exact ih ht visit v

/-- Validation has the same outcome: the same output, or the same failures. -/
theorem validate (h : Moves m S env env') (config : Config) (hs : s.Into S) (v : Value) :
    env'.validate config (s.moved m n) v = env.validate config s v :=
  congrArg _ (h.checkWithin config config.maxDepth hs .root v)

end Env.Moves
end Schemata
