import Schemata.Proofs.Validation.Entries
import Schemata.Proofs.Validation.Likeness
import Schemata.Proofs.Validation.Resemblance
import Schemata.Proofs.Validation.Totality

/-! Validation and the order of entries. Checks of two values that differ only in the order of entries go alike: both
refuse, or both accept with outputs that differ in order only. The order decides nothing but which of two keys that
stand for one property key is checked further, on the way to a refusal; where a constraint cannot be checked at all,
that may decide whether there is an answer. -/
namespace Schemata

/-- Two runs end alike: both with results that `S` relates, or both with an error. Unless `strict`, one alone may end
with an error. -/
def Concord {ε α β : Type} (strict : Prop) (S : α → β → Prop) (x : Except ε α) (y : Except ε β) : Prop :=
  match x, y with
  | .ok a, .ok b => S a b
  | .error _, .error _ => True
  | _, _ => ¬ strict

namespace Concord

variable {ε α β γ δ : Type} {strict : Prop} {R : α → β → Prop} {S : γ → δ → Prop} {x : Except ε α} {y : Except ε β}

theorem bind {f : α → Except ε γ} {g : β → Except ε δ} (h : Concord strict R x y)
    (hf : ∀ a b, x = .ok a → R a b → Concord strict S (f a) (g b)) : Concord strict S (x >>= f) (y >>= g) := by
  cases x with
  | error d =>
    cases y with
    | error e => trivial
    | ok b =>
      show Concord strict S (.error d) (g b)
      cases g b <;> trivial
  | ok a =>
    cases y with
    | error e =>
      show Concord strict S (f a) (.error e)
      cases f a <;> trivial
    | ok b => exact hf a b rfl h

theorem map {f : α → γ} {g : β → δ} (h : Concord strict R x y) (hf : ∀ a b, R a b → S (f a) (g b)) :
    Concord strict S (x.map f) (y.map g) := by
  cases x <;> cases y <;> first | exact hf _ _ h | exact h

/-- Where nothing is promised of errors, only two results have to be related. -/
theorem lenient (hno : ¬ strict) (h : ∀ a b, x = .ok a → y = .ok b → R a b) : Concord strict R x y := by
  cases x <;> cases y <;> first | exact h _ _ rfl rfl | exact hno | trivial

theorem of_agree {E : ε → ε → Prop} {Q : α → β → Prop} (h : Agree E Q x y) (hQ : ∀ a b, Q a b → R a b) :
    Concord strict R x y := by
  cases x <;> cases y <;> first | exact hQ _ _ h | trivial

/-- If `strict`, both give a result or neither. -/
theorem ends_iff (h : Concord strict R x y) (hstrict : strict) : (∃ a, x = .ok a) ↔ ∃ b, y = .ok b := by
  cases x <;> cases y <;> first | exact absurd hstrict h | simp

/-- A run can be exchanged for one that agrees with it. -/
theorem of_agree_left {E : ε → ε → Prop} {Q : α → γ → Prop} {P : γ → β → Prop} {z : Except ε γ} (h : Agree E Q x z)
    (k : Concord strict P z y) (hR : ∀ a c b, Q a c → P c b → R a b) : Concord strict R x y := by
  cases x <;> cases z <;> cases y <;> first | exact hR _ _ _ h k | trivial

end Concord

/-- Two outcomes of an accepted value, or two of a refused one. Outputs are compared where they are looked at: those of
accepted values, or all if `strict`. -/
structure Outcome.Rearranged (strict : Prop) (o p : Outcome) : Prop where
  isOk : o.isOk = p.isOk
  output : strict ∨ o.isOk = true → o.output.Rearranged strict p.output

namespace Outcome.Rearranged

variable {strict : Prop} {o p : Outcome} {v w : Value}

theorem failures (h : o.Rearranged strict p) : o.failures = [] ↔ p.failures = [] := by
  rw [← isOk_iff, ← isOk_iff, h.isOk]

theorem of_failures (hfailures : o.failures = [] ↔ p.failures = [])
    (houtput : strict ∨ o.failures = [] → o.output.Rearranged strict p.output) : o.Rearranged strict p :=
  ⟨Bool.eq_iff_iff.mpr (by rwa [isOk_iff, isOk_iff]), fun h => houtput (h.imp_right isOk_iff.mp)⟩

theorem within (h : o.Rearranged strict p) (s t : Segment) : (o.within s).Rearranged strict (p.within t) :=
  ⟨by rw [isOk_within, isOk_within, h.isOk], fun hlook => h.output (by rwa [isOk_within] at hlook)⟩

theorem fail (h : v.Rearranged strict w) (m m' c c' : String) (k k' : Code) (a a' : Value) :
    (Outcome.fail v m c k a).Rearranged strict (.fail w m' c' k' a') := ⟨rfl, fun _ => h⟩

/-- Nobody looks at the outputs of refused values. -/
theorem refused (hno : ¬ strict) (ho : o.isOk = false) (hp : p.isOk = false) : o.Rearranged strict p :=
  ⟨ho.trans hp.symm, fun h => absurd h (by simp [hno, ho])⟩

end Outcome.Rearranged

/-- Of equal values the predicate accepts both or neither. -/
def Predicate.Extensional (hooks : Hooks) (p : Predicate) : Prop :=
  ∀ v w : Value, v.Every Value.Orderly → v.equal w = true → (p.check hooks v).isValid = (p.check hooks w).isValid

/-- A predicate of the constraint goes by equality. -/
def Constraint.Extensional (hooks : Hooks) : Constraint → Prop
  | .predicate p => p.Extensional hooks
  | _ => True

theorem Value.Rearranged.lookalike {strict : Prop} {v w : Value} (h : v.Rearranged strict w) : v.Lookalike w :=
  ⟨h.reorders.domain, h.reorders.typeName, h.reorders.isForeign, h.reorders.length?, h.reorders.number,
    h.reorders.string⟩

theorem Constraint.like_of_rearranged {hooks : Hooks} {strict : Prop} {c : Constraint} (hc : c.Extensional hooks) :
    c.Like hooks (Value.Rearranged strict) c := by
  intro v w h
  by_cases hp : ∃ p, c = .predicate p
  · obtain ⟨p, rfl⟩ := hp
    exact hc v w h.orderly h.equal
  · have hcheck : Agree (· = ·) SameVerdict (c.check hooks v) (c.check hooks w) :=
      c.check_lookalike h.lookalike (fun a _ => h.reorders.literalEqual h.orderly a) fun p hpredicate =>
        absurd ⟨p, hpredicate⟩ hp
    refine (hcheck.monoError fun e f hef => hef ▸ .refl rfl).mono fun d e hde => ?_
    cases d <;> cases e <;> first | rfl | cases hde

/-- Two entries of one key whose items differ in the order of entries only. -/
structure Entry.Rearranged (strict : Prop) (e f : Entry) : Prop where
  key : e.key = f.key
  item : e.item.Rearranged strict f.item

/-- Two outputs under construction that differ in the order of entries only, where they are looked at. -/
structure Rebuilt.Rearranged (strict : Prop) (r s : Rebuilt) : Prop where
  failures : r.failures = [] ↔ s.failures = []
  entries : strict ∨ r.failures = [] → ∃ ds, r.entries.Perm ds ∧
    List.Forall₂ (fun d e => d.1 = e.1 ∧ d.2.Rearranged strict e.2) ds s.entries

namespace Rebuilt.Rearranged

variable {strict : Prop} {r r' s s' : Rebuilt}

theorem append (h : r.Rearranged strict s) (h' : r'.Rearranged strict s') :
    (r.append r').Rearranged strict (s.append s') := by
  refine ⟨?_, fun hlook => ?_⟩
  · simp [Rebuilt.append, h.failures, h'.failures]
  · simp only [Rebuilt.append, List.append_eq_nil_iff] at hlook ⊢
    obtain ⟨ds, hds, hall⟩ := h.entries (hlook.imp_right And.left)
    obtain ⟨ds', hds', hall'⟩ := h'.entries (hlook.imp_right And.right)
    exact ⟨ds ++ ds', hds.append hds', List.rel_append hall hall'⟩

theorem empty : Rebuilt.empty.Rearranged strict .empty := ⟨Iff.rfl, fun _ => ⟨[], .nil, .nil⟩⟩

theorem item (key : Key) {o p : Outcome} (h : o.Rearranged strict p) :
    (Rebuilt.item key o).Rearranged strict (.item key p) :=
  ⟨h.failures, fun hlook => ⟨_, .refl _, .cons ⟨rfl, h.output (hlook.imp_right Outcome.isOk_iff.mpr)⟩ .nil⟩⟩

theorem failure (key : Key) (m m' c c' : String) (k k' : Code) (a a' : Value) :
    (Rebuilt.failure key m c k a).Rearranged strict (.failure key m' c' k' a') :=
  ⟨by simp [Rebuilt.failure], fun _ => ⟨[], .nil, .nil⟩⟩

end Rebuilt.Rearranged

namespace Check

variable {strict : Prop} {config : Config} {hooks : Hooks} {visit visit' : Visit} {v w : Value}

/-- The check goes alike on values that differ in the order of entries only, whatever surrounds them. -/
def IgnoresOrder (strict : Prop) (c : Check) : Prop :=
  ∀ visit visit' v w, v.Rearranged strict w → Concord strict (Outcome.Rearranged strict) (c visit v) (c visit' w)

theorem keyword_ignoresOrder (k : Keyword) : (keyword k).IgnoresOrder strict := by
  intro visit visit' v w h
  refine .of_failures ?_ fun _ => h
  rw [Failure.ofVerdict_eq_nil, Failure.ofVerdict_eq_nil]
  simp only [Keyword.check, h.lookalike.holds k]
  split_ifs <;> simp [Verdict.isValid, Verdict.refuse]

theorem literal_ignoresOrder (a : Value) : (literal a).IgnoresOrder strict := by
  intro visit visit' v w h
  unfold literal
  rw [h.reorders.domain, h.reorders.literalEqual h.orderly]
  split_ifs
  · exact ⟨rfl, fun _ => h⟩
  · exact .fail h _ _ _ _ _ _ _ _

theorem IgnoresOrder.constrained {c : Check} (h : c.IgnoresOrder strict) {cs : List Constraint}
    (hcs : ∀ c ∈ cs, c.Extensional hooks) : (Check.constrained hooks c cs).IgnoresOrder strict := by
  intro visit visit' v w hv
  refine (h visit visit' v w hv).bind fun o p _ ho => ?_
  rw [← ho.isOk]
  split_ifs with hok
  · have hlike := constraintFailures_like (List.forall₂_same.mpr fun c hc => c.like_of_rearranged (hcs c hc))
      (ho.output (Or.inr hok))
    refine .bind (.of_agree hlike fun _ _ hfs => hfs) fun fs gs _ hfs => ?_
    exact .of_failures hfs fun _ => ho.output (Or.inr hok)
  · exact ho

theorem conjunction_ignoresOrder {cs : List Check} (h : ∀ c ∈ cs, c.IgnoresOrder strict) :
    (conjunction cs).IgnoresOrder strict := by
  induction cs with
  | nil => exact fun _ _ _ _ hv => ⟨rfl, fun _ => hv⟩
  | cons c cs ih =>
    rw [List.forall_mem_cons] at h
    intro visit visit' v w hv
    refine (h.1 visit visit' v w hv).bind fun o p _ ho => ?_
    by_cases hlook : strict ∨ o.isOk = true
    · refine (ih h.2 _ _ _ _ (ho.output hlook)).bind fun o' p' _ ho' => .of_failures ?_ fun hlook' => ?_
      · simp only [List.append_eq_nil_iff, ho.failures, ho'.failures]
      · exact ho'.output (hlook'.imp_right fun hnil => Outcome.isOk_iff.mpr (List.append_eq_nil_iff.mp hnil).2)
    · -- The outputs of a refusing member need not be related, but nothing behind it makes up for the refusal.
      obtain ⟨hno, hrefused⟩ := not_or.mp hlook
      have refuses : ∀ {q r : Outcome} {x : Except Fault Outcome}, q.isOk = false →
          (x >>= fun rest => pure ⟨rest.output, q.rebuilt || rest.rebuilt, q.failures ++ rest.failures⟩) = .ok r →
          r.isOk = false := by
        intro q r x hq hr
        obtain ⟨rest, -, hr⟩ := bind_ok hr
        rw [← Except.ok.inj hr, Bool.eq_false_iff, ne_eq, Outcome.isOk_iff, List.append_eq_nil_iff]
        exact fun hnil => Bool.eq_false_iff.mp hq (Outcome.isOk_iff.mpr hnil.1)
      have ho' : o.isOk = false := Bool.eq_false_iff.mpr hrefused
      exact .lenient hno fun a b ha hb => .refused hno (refuses ho' ha) (refuses (ho.isOk ▸ ho') hb)

section Union

variable {domains : Schema → Except Fault (Option DomainSet)} {bs : List (Schema × Check)}

theorem firstAccepting_ignoresOrder (h : ∀ b ∈ bs, b.2.IgnoresOrder strict) (hv : v.Rearranged strict w) :
    Concord strict (Sum.LiftRel (Outcome.Rearranged strict) (List.Forall₂ (Attempt domains)))
      (firstAccepting visit v bs) (firstAccepting visit' w bs) := by
  induction bs with
  | nil => exact .inr .nil
  | cons b bs ih =>
    obtain ⟨s, c⟩ := b
    rw [List.forall_mem_cons] at h
    refine (h.1 visit visit' v w hv).bind fun o p _ ho => ?_
    rw [← ho.isOk]
    split_ifs with hok
    · exact .inl ho
    · refine (ih h.2).bind fun a b _ hab => ?_
      cases hab with
      | inl hop => exact .inl hop
      | inr hall =>
        have hfailed : o.failures ≠ [] := fun hnil => hok (Outcome.isOk_iff.mpr hnil)
        exact .inr (.cons ⟨rfl, hfailed, ho.failures.not.mp hfailed⟩ hall)

theorem union_ignoresOrder (hquiet : ∀ s, Quiet (domains s)) (h : ∀ b ∈ bs, b.2.IgnoresOrder strict) :
    (union domains bs).IgnoresOrder strict := by
  intro visit visit' v w hv
  have htried := @firstAccepting_ignoresOrder strict visit visit' v w domains bs h hv
  refine htried.bind fun a b _ hab => ?_
  cases hab with
  | inl hop => exact hop
  | inr hall =>
    dsimp only
    rw [hv.reorders.domain]
    refine .bind (.of_agree (matching_like hquiet _ hall) fun _ _ hfss => hfss) fun fss gss _ hfss => ?_
    cases hfss with
    | nil => exact .fail hv _ _ _ _ _ _ _ _
    | cons hfg hrest =>
      cases hrest with
      | nil => exact .of_failures (iff_of_false hfg.1 hfg.2) fun _ => hv
      | cons _ _ => exact .fail hv _ _ _ _ _ _ _ _

end Union

section Objects

variable {es fs : List Entry}

theorem IgnoresOrder.inside {c : Check} (h : c.IgnoresOrder strict) (s : Segment) (hv : v.Rearranged strict w) :
    Concord strict (Outcome.Rearranged strict) (c.inside s visit v) (c.inside s visit' w) :=
  (h visit.renewed visit'.renewed v w hv).map fun _ _ ho => ho.within s s

theorem property_ignoresOrder {p : Property Check} (h : p.value.IgnoresOrder strict) (hp : p.presence.default? = none)
    (hes : List.Forall₂ (Entry.Rearranged strict) es fs) : Concord strict (Rebuilt.Rearranged strict)
      (property config hooks visit es p) (property config hooks visit' fs p) := by
  have hgiven : Option.Rel (Entry.Rearranged strict) (given? config es p) (given? config fs p) := by
    have hfind : Option.Rel (Entry.Rearranged strict) (Entry.find? es p.key) (Entry.find? fs p.key) :=
      rel_find? hes fun e f hef => by rw [hef.key]
    unfold given?
    generalize Entry.find? es p.key = e at hfind ⊢
    generalize Entry.find? fs p.key = f at hfind ⊢
    cases hfind with
    | none => exact .none
    | some hef =>
      simp only [Option.filter_some, hef.item.reorders.isUndefined]
      split_ifs
      · exact .some hef
      · exact .none
  unfold property
  generalize given? config es p = e at hgiven ⊢
  generalize given? config fs p = f at hgiven ⊢
  cases hgiven with
  | some hef => exact (h.inside _ hef.item).map fun _ _ ho => .item p.key ho
  | none =>
    dsimp only
    cases hpresence : p.presence with
    | required => exact .failure _ _ _ _ _ _ _ _ _
    | optional => exact .empty
    | defaultable d => rw [hpresence] at hp; cases hp

theorem properties_ignoresOrder {ps : List (Property Check)}
    (h : ∀ p ∈ ps, p.value.IgnoresOrder strict ∧ p.presence.default? = none)
    (hes : List.Forall₂ (Entry.Rearranged strict) es fs) : Concord strict (Rebuilt.Rearranged strict)
      (properties config hooks visit es ps) (properties config hooks visit' fs ps) := by
  induction ps with
  | nil => exact .empty
  | cons p ps ih =>
    rw [List.forall_mem_cons] at h
    exact (property_ignoresOrder h.1.1 h.1.2 hes).bind fun _ _ _ hr => (ih h.2).bind fun _ _ _ hs => hr.append hs

variable {shape : ObjectShape Check}

theorem undeclared_ignoresOrder
    (h : ∀ i, shape.index = some i → i.key.IgnoresOrder strict ∧ i.value.IgnoresOrder strict) {e f : Entry}
    (hef : e.Rearranged strict f) : Concord strict (Rebuilt.Rearranged strict) (undeclared shape visit e)
      (undeclared shape visit' f) := by
  have policy : Concord strict (Rebuilt.Rearranged strict) (undeclared ⟨[], none, shape.undeclared⟩ visit e)
      (undeclared ⟨[], none, shape.undeclared⟩ visit' f) := by
    unfold undeclared indexTakes
    rw [hef.key]
    cases shape.undeclared with
    | reject => exact .failure _ _ _ _ _ _ _ _ _
    | ignore => exact .item _ ⟨rfl, fun _ => hef.item⟩
    | delete => exact .empty
  rw [undeclared_eq shape, undeclared_eq shape]
  cases hindex : shape.index with
  | none => exact policy
  | some i =>
    obtain ⟨hkey, hvalue⟩ := h i hindex
    dsimp only
    rw [hef.key]
    refine (hkey visit.renewed visit'.renewed _ _ (.of_key f.key)).bind fun p q _ hpq => ?_
    rw [← hpq.isOk]
    split_ifs
    · exact (hvalue.inside _ hef.item).map fun _ _ ho => .item _ ho
    · exact policy

theorem undeclaredAll_ignoresOrder
    (h : ∀ i, shape.index = some i → i.key.IgnoresOrder strict ∧ i.value.IgnoresOrder strict)
    (hes : List.Forall₂ (Entry.Rearranged strict) es fs) : Concord strict (Rebuilt.Rearranged strict)
      (undeclaredAll shape visit es) (undeclaredAll shape visit' fs) := by
  induction hes with
  | nil => exact .empty
  | cons hef _ ih =>
    rw [undeclaredAll_cons, undeclaredAll_cons, hef.key]
    split_ifs
    · exact ih.bind fun _ _ _ hs => Rebuilt.Rearranged.empty.append hs
    · exact (undeclared_ignoresOrder h hef).bind fun _ _ _ hr => ih.bind fun _ _ _ hs => hr.append hs

/-- The checked entries of two mappings. Sorted as the second mapping, those of the first differ from those of the
second in nothing else. -/
structure Collected (strict : Prop) (es fs : List Entry) : Prop where
  nodup : (Entry.keys es).Nodup
  sorted : ∃ ds, es.Perm ds ∧ List.Forall₂ (Entry.Rearranged strict) ds fs

theorem collect_rearranged {raw ds raw' : List (Value × Value)} (hperm : raw.Perm ds)
    (hall : List.Forall₂ (fun d e => d.1.Resembles e.1 ∧ d.2.Rearranged strict e.2) ds raw')
    (hapart : (Value.mapping raw).KeysApart) : Collected strict (Entry.collect [] raw).1 (Entry.collect [] raw').1 ∧
      ((Entry.collect [] raw).2 = [] ↔ (Entry.collect [] raw').2 = []) := by
  have hkeys := Value.keys_perm hperm (hall.imp fun _ _ h => h.1)
  have collect : ∀ {raw : List (Value × Value)}, (Value.mapping raw).KeysApart →
      (Entry.collect [] raw).1 = raw.filterMap Entry.ofPair? ∧
        ((Entry.collect [] raw).2 = [] ↔ ∀ pair ∈ raw, (Key.ofValue? pair.1).isSome = true) := fun {raw} h =>
    Entry.collect_of_nodup (by rwa [List.nil_append, Entry.keys_filterMap])
  obtain ⟨hes, hfailures⟩ := collect hapart
  obtain ⟨hfs, hfailures'⟩ := collect ((Value.keysApart_iff hkeys).mp hapart)
  rw [hes, hfs, hfailures, hfailures']
  refine ⟨⟨?_, ds.filterMap Entry.ofPair?, hperm.filterMap _, ?_⟩, ?_⟩
  · rwa [Entry.keys_filterMap]
  · refine List.rel_filterMap (fun d e hde => ?_) hall
    unfold Entry.ofPair?
    rw [hde.1.key]
    cases Key.ofValue? e.1 with
    | none => exact .none
    | some key => exact .some ⟨rfl, hde.2⟩
  · have hsome := fun key => hkeys.mem_iff (a := key)
    simp only [List.mem_map] at hsome
    constructor
    · intro h pair hpair
      obtain ⟨d, hd, hkey⟩ := (hsome _).mpr ⟨pair, hpair, rfl⟩
      exact hkey ▸ h d hd
    · intro h pair hpair
      obtain ⟨d, hd, hkey⟩ := (hsome _).mp ⟨pair, hpair, rfl⟩
      exact hkey ▸ h d hd

theorem declared_ignoresOrder {ps : List (Property Check)}
    (h : ∀ p ∈ ps, p.value.IgnoresOrder strict ∧ p.presence.default? = none) (hes : Collected strict es fs) :
    Concord strict (Rebuilt.Rearranged strict) (properties config hooks visit es ps)
      (properties config hooks visit' fs ps) := by
  obtain ⟨hnodup, ds, hperm, hall⟩ := hes
  rw [properties_congr (Entry.find?_of_perm hnodup hperm)]
  exact properties_ignoresOrder h hall

theorem rest_ignoresOrder
    (h : ∀ i, shape.index = some i → i.key.IgnoresOrder strict ∧ i.value.IgnoresOrder strict)
    (hes : Collected strict es fs) : Concord strict (Rebuilt.Rearranged strict) (undeclaredAll shape visit es)
      (undeclaredAll shape visit' fs) := by
  obtain ⟨-, ds, hperm, hall⟩ := hes
  refine .of_agree_left (undeclaredAll_perm hperm) (undeclaredAll_ignoresOrder h hall) fun r m s hrm hms => ?_
  have hnil : r.failures = [] ↔ m.failures = [] := by
    rw [← List.length_eq_zero_iff, ← List.length_eq_zero_iff, hrm.2.length_eq]
  refine ⟨hnil.trans hms.failures, fun hlook => ?_⟩
  obtain ⟨ds, hds, hall⟩ := hms.entries (hlook.imp_right hnil.mp)
  exact ⟨ds, hrm.1.trans hds, hall⟩

theorem object_ignoresOrder
    (hproperties : ∀ p ∈ shape.properties, p.value.IgnoresOrder strict ∧ p.presence.default? = none)
    (hindex : ∀ i, shape.index = some i → i.key.IgnoresOrder strict ∧ i.value.IgnoresOrder strict)
    (hkeys : (shape.properties.map (·.key)).Nodup) : (object config hooks shape).IgnoresOrder strict := by
  intro visit visit' v w hv
  have hentries := hv.entries
  cases hraw : v.entries? with
  | none =>
    rw [hraw] at hentries
    generalize hraw' : w.entries? = raw' at hentries
    cases hentries
    unfold object
    rw [hraw, hraw']
    exact .fail hv _ _ _ _ _ _ _ _
  | some raw =>
    rw [hraw] at hentries
    generalize hraw' : w.entries? = o at hentries
    cases hentries with
    | @some _ raw' hrel =>
      obtain ⟨hstrict, ds, hperm, hall⟩ := hrel
      by_cases hapart : (Value.mapping raw).KeysApart
      · obtain ⟨hes, hfailures⟩ := collect_rearranged hperm hall hapart
        unfold object
        rw [hraw, hraw']
        refine (declared_ignoresOrder hproperties hes).bind fun r s hr hrs => ?_
        refine (rest_ignoresOrder hindex hes).bind fun r' s' hr' hrs' => ?_
        have hall := hrs.append hrs'
        refine .of_failures ?_ fun hlook => ?_
        · simp only [List.append_eq_nil_iff, hfailures, hall.failures]
        · obtain ⟨ms, hms, hrearranged⟩ := hall.entries (hlook.imp_right fun h => (List.append_eq_nil_iff.mp h).2)
          obtain ⟨ks, hks, hentries⟩ := (properties_under hr).append (undeclaredAll_under hr')
          exact .ofKeys hentries (hks.nodup (nodup_checked hkeys hes.nodup)) hms hrearranged
      · have hno : ¬ strict := fun hs => hapart (hstrict hs)
        have hapart' : ¬ (Value.mapping raw').KeysApart :=
          (Value.keysApart_iff (Value.keys_perm hperm (hall.imp fun _ _ h => h.1))).not.mp hapart
        exact .lenient hno fun a b ha hb =>
          .refused hno (object_refuses hraw hapart ha) (object_refuses hraw' hapart' hb)

end Objects

section Tuples

variable {ts : List (Element Check)} {vs ws : List Value}

theorem fixedElements_ignoresOrder (h : ∀ e ∈ ts, e.value.IgnoresOrder strict ∧ e.role.default? = none)
    (hvs : List.Forall₂ (Value.Rearranged strict) vs ws) (i : Nat) :
    Concord strict (List.Forall₂ (Outcome.Rearranged strict)) (fixedElements config hooks visit i ts vs)
      (fixedElements config hooks visit' i ts ws) := by
  induction ts generalizing i vs ws with
  | nil => cases hvs <;> exact .nil
  | cons e ts ih =>
    rw [List.forall_mem_cons] at h
    cases hvs with
    | cons hv hvs =>
      exact (h.1.1.inside _ hv).bind fun _ _ _ ho => (ih h.2 hvs (i + 1)).bind fun _ _ _ hos => .cons ho hos
    | nil =>
      obtain ⟨⟨-, hrole⟩, -⟩ := h
      obtain ⟨role, c⟩ := e
      cases role with
      | defaultable d => cases hrole
      | _ => exact .nil

theorem repeatedElement_ignoresOrder {c : Check} (h : c.IgnoresOrder strict)
    (hvs : List.Forall₂ (Value.Rearranged strict) vs ws) (i : Nat) :
    Concord strict (List.Forall₂ (Outcome.Rearranged strict)) (repeatedElement c visit i vs)
      (repeatedElement c visit' i ws) := by
  induction hvs generalizing i with
  | nil => exact .nil
  | cons hv _ ih => exact (h.inside _ hv).bind fun _ _ _ ho => (ih (i + 1)).bind fun _ _ _ hos => .cons ho hos

theorem trailingElements_ignoresOrder (h : ∀ e ∈ ts, e.value.IgnoresOrder strict)
    (hvs : List.Forall₂ (Value.Rearranged strict) vs ws) (i : Nat) :
    Concord strict (List.Forall₂ (Outcome.Rearranged strict)) (trailingElements visit i ts vs)
      (trailingElements visit' i ts ws) := by
  induction ts generalizing i vs ws with
  | nil => cases hvs <;> exact .nil
  | cons e ts ih =>
    rw [List.forall_mem_cons] at h
    cases hvs with
    | nil => exact .nil
    | cons hv hvs =>
      exact (h.1.inside _ hv).bind fun _ _ _ ho => (ih h.2 hvs (i + 1)).bind fun _ _ _ hos => .cons ho hos

theorem elements_ignoresOrder (h : ∀ e ∈ ts, e.value.IgnoresOrder strict ∧ e.role.default? = none)
    (hvs : List.Forall₂ (Value.Rearranged strict) vs ws) :
    Concord strict (List.Forall₂ (Outcome.Rearranged strict)) (elements config hooks ts visit vs)
      (elements config hooks ts visit' ws) := by
  have hlength := hvs.length_eq
  unfold elements
  dsimp only
  rw [← hlength]
  have hfront := List.forall₂_take (vs.length - (Element.trailing ts).length) hvs
  refine (fixedElements_ignoresOrder (fun e he => h e (List.mem_filter.mp he).1) hfront 0).bind
    fun head head' _ hhead => ?_
  cases hvariadic : Element.variadic? ts with
  | none => exact hhead
  | some e =>
    have he := (h e (List.mem_of_find?_eq_some hvariadic)).1
    refine (repeatedElement_ignoresOrder he (List.forall₂_drop _ hfront) _).bind fun middle middle' _ hmiddle => ?_
    rw [← hfront.length_eq]
    refine (trailingElements_ignoresOrder (fun e he => (h e (List.mem_filter.mp he).1).1)
      (List.forall₂_drop _ hvs) _).bind fun tail tail' _ htail => ?_
    exact List.rel_append (List.rel_append hhead hmiddle) htail

theorem tuple_ignoresOrder {shape : List (Element Schema)}
    (h : ∀ e ∈ ts, e.value.IgnoresOrder strict ∧ e.role.default? = none) :
    (tuple config hooks shape ts).IgnoresOrder strict := by
  intro visit visit' v w hv
  have hitems := hv.items
  unfold tuple
  generalize v.items? = p at hitems ⊢
  generalize w.items? = p' at hitems ⊢
  cases hitems with
  | none => exact .fail hv _ _ _ _ _ _ _ _
  | @some p p' hpp =>
    obtain ⟨q, items⟩ := p
    obtain ⟨q', items'⟩ := p'
    obtain ⟨rfl, hall⟩ : q = q' ∧ List.Forall₂ (Value.Rearranged strict) items items' := hpp
    dsimp only
    rw [hall.length_eq]
    split_ifs
    · refine (elements_ignoresOrder h hall).bind fun os ps hrun hos => .of_failures ?_ fun hlook => .make q ?_
      · simp only [Outcome.allFailures_eq_nil]
        clear hall hrun
        induction hos with
        | nil => simp
        | cons ho _ ih => simp only [List.forall_mem_cons, ho.isOk, ih]
      · simp only [Outcome.allFailures_eq_nil] at hlook
        simp only [Outcome.outputs, List.forall₂_map_left_iff, List.forall₂_map_right_iff]
        have hlook : ∀ o ∈ os, strict ∨ o.isOk = true := fun o ho => hlook.imp_right fun h => h o ho
        exact ((List.forall₂_and_left _ _).mpr ⟨hlook, hos⟩).imp fun _ _ h => h.2.output h.1
    · exact .fail hv _ _ _ _ _ _ _ _

end Tuples

end Check

namespace Schema

variable {env : Env} {config : Config} {follow : Ref → Check} {strict : Prop} {s : Schema}

/-- A node that is complete in itself: nothing is looked up or filled in, properties have keys of their own, and
predicates go by equality. -/
def SelfContained (hooks : Hooks) : Schema → Prop
  | .ref _ => False
  | .constrained _ cs => ∀ c ∈ cs, c.Extensional hooks
  | .object o => o.keys.Nodup ∧ ∀ p ∈ o.properties, p.presence.default? = none
  | .tuple es => ∀ e ∈ es, e.role.default? = none
  | _ => True

theorem SelfContained.defaults {hooks : Hooks} (h : s.SelfContained hooks) : s.defaults = [] := by
  cases s with
  | object o => exact List.filterMap_eq_nil_iff.mpr h.2
  | tuple es => exact List.filterMap_eq_nil_iff.mpr h
  | _ => rfl

theorem checkWith_ignoresOrder (hs : s.Every (SelfContained env.hooks)) :
    (s.checkWith env config follow).IgnoresOrder strict := by
  induction s using induction_on_parts with
  | _ s ih =>
    have ih : ∀ t ∈ s.parts, (t.checkWith env config follow).IgnoresOrder strict := fun t ht => ih t ht (hs.part ht)
    have hnode := hs.root
    cases s with
    | keyword k => exact Check.keyword_ignoresOrder k
    | literal a => exact Check.literal_ignoresOrder a
    | constrained t cs =>
      exact (ih t (List.mem_singleton.mpr rfl)).constrained hnode
    | union bs =>
      rw [checkWith, branchChecks_eq]
      refine Check.union_ignoresOrder env.domains?_quiet fun b hb => ?_
      obtain ⟨t, ht, rfl⟩ := List.mem_map.mp hb
      exact ih t ht
    | intersection ms =>
      rw [checkWith, memberChecks_eq]
      refine Check.conjunction_ignoresOrder fun c hc => ?_
      obtain ⟨t, ht, rfl⟩ := List.mem_map.mp hc
      exact ih t ht
    | ref r => exact hnode.elim
    | object o =>
      obtain ⟨ps, i, u⟩ := o
      rw [checkWith, propertyChecks_eq]
      refine Check.object_ignoresOrder (fun c hc => ?_) (fun c hc => ?_) ?_
      · obtain ⟨p, hp, rfl⟩ := List.mem_map.mp hc
        exact ⟨ih _ (List.mem_append_left _ (List.mem_map_of_mem hp)), hnode.2 p hp⟩
      · cases i with
        | none => cases hc
        | some i =>
          obtain rfl := Option.some.inj hc
          exact ⟨ih i.key (by simp [parts, IndexSignature.parts]), ih i.value (by simp [parts, IndexSignature.parts])⟩
      · simpa [ObjectShape.keys, Function.comp_def] using hnode.1
    | tuple es =>
      rw [checkWith, elementChecks_eq]
      refine Check.tuple_ignoresOrder fun c hc => ?_
      obtain ⟨e, he, rfl⟩ := List.mem_map.mp hc
      exact ⟨ih _ (List.mem_map_of_mem he), hnode e he⟩

end Schema

namespace Env

variable {env : Env} {config : Config} {s : Schema} {v w : Value}

/-- Two answers of validation that refuse, or two that accept with equal outputs. -/
def EqualAnswer : Except (List Failure) Value → Except (List Failure) Value → Prop
  | .ok a, .ok b => a.equal b = true
  | .error _, .error _ => True
  | _, _ => False

theorem validate_concord {strict : Prop} (hs : s.Every (Schema.SelfContained env.hooks)) (h : v.Rearranged strict w) :
    Concord strict EqualAnswer (env.validate config s v) (env.validate config s w) := by
  have hrun : Concord strict (Outcome.Rearranged strict) (env.run config s v) (env.run config s w) := by
    rw [run, run, check_eq]
    exact Schema.checkWith_ignoresOrder hs .root .root v w h
  refine hrun.map fun o p ho => ?_
  rw [← ho.isOk]
  cases hok : o.isOk with
  | false => trivial
  | true => exact (ho.output (Or.inr hok)).equal

theorem EqualAnswer.isOk_iff {a b : Except (List Failure) Value} (h : EqualAnswer a b) :
    (∃ x, a = .ok x) ↔ ∃ y, b = .ok y := by
  cases a <;> cases b <;> first | exact h.elim | simp

/-- Where nothing is looked up or filled in, only a constraint that cannot be checked keeps validation from an
answer. -/
theorem validate_answers_self (hs : s.Every (Schema.SelfContained env.hooks)) (hsound : s.Every Schema.Sound)
    (v : Value) : ∃ a, env.validate config s v = .ok a := by
  have hcomplete : env.Complete fun _ => False := fun _ hr => hr.elim
  have hinto : s.Into fun _ => False := hs.mono fun t ht r hr => by
    subst hr
    exact ht
  have hsupplied : s.Every (Schema.Supplied env.hooks) := hs.mono fun t ht p hp => by
    rw [ht.defaults] at hp
    exact absurd hp (List.not_mem_nil)
  exact (validate_answers hcomplete hinto ⟨hsound, fun _ _ hr => hr.elim⟩).1 ⟨hsupplied, fun _ _ hr => hr.elim⟩

/-- The order of entries decides nothing about an answer. It can decide whether there is one, if a mapping has two keys
that stand for one property key and the constraint on one of their items cannot be checked. -/
theorem validate_reordered (hs : s.Every (Schema.SelfContained env.hooks)) (hv : v.Every Value.Orderly)
    (h : v.Reorders w) :
    (∀ a b, env.validate config s v = .ok a → env.validate config s w = .ok b → EqualAnswer a b) ∧
      (s.Every Schema.Sound ∨ v.Throughout Value.KeysApart →
        ((∃ a, env.validate config s v = .ok (.ok a)) ↔ ∃ b, env.validate config s w = .ok (.ok b))) := by
  have hconcord : Concord (v.Throughout Value.KeysApart) EqualAnswer (env.validate config s v)
      (env.validate config s w) := validate_concord hs ⟨h, hv, id⟩
  refine ⟨fun a b ha hb => by rwa [ha, hb] at hconcord, fun hno => ?_⟩
  have hanswers : (∃ a, env.validate config s v = .ok a) ↔ ∃ b, env.validate config s w = .ok b := by
    rcases hno with hsound | hapart
    · exact iff_of_true (validate_answers_self hs hsound v) (validate_answers_self hs hsound w)
    · exact hconcord.ends_iff hapart
  constructor
  · rintro ⟨a, ha⟩
    obtain ⟨b, hb⟩ := hanswers.mp ⟨_, ha⟩
    rw [ha, hb] at hconcord
    obtain ⟨b, rfl⟩ := hconcord.isOk_iff.mp ⟨a, rfl⟩
    exact ⟨b, hb⟩
  · rintro ⟨b, hb⟩
    obtain ⟨a, ha⟩ := hanswers.mpr ⟨_, hb⟩
    rw [ha, hb] at hconcord
    obtain ⟨a, rfl⟩ := hconcord.isOk_iff.mpr ⟨b, rfl⟩
    exact ⟨a, ha⟩

/-- A world without names in which a predicate accepts whatever is no empty mapping. -/
def larder : Env :=
  ⟨⟨fun _ v => .value (.bool (!(Value.mapping []).same v)), fun _ => .error ⟨"ValueError", "no"⟩⟩, [],
    .ok Config.default⟩

theorem same_empty_iff {x : Value} : (Value.mapping []).same x = true ↔ x.unfold = .mapping [] := by
  simp only [Value.same]
  cases x.unfold with
  | mapping ys => cases ys <;> simp [Value.within]
  | _ => simp

theorem larder_extensional (p : Predicate) : p.Extensional larder.hooks := by
  intro v w hv h
  have hsame : v.same w = true := (Bool.and_eq_true_iff.mp h).2
  have hempty : (Value.mapping []).same v = true ↔ (Value.mapping []).same w = true := by
    rw [same_empty_iff, Value.unfold_of_label hv.root.label?]
    constructor
    · rintro rfl
      exact hsame
    · intro hempty
      have hw := same_empty_iff.mp hempty
      cases v with
      | mapping es =>
        simp only [Value.same, hw, List.length_nil, Bool.and_eq_true, beq_iff_eq, List.length_eq_zero_iff] at hsame
        rw [hsame.1]
      | list xs => simp [Value.same, hw] at hsame
      | tuple l xs => simp [Value.same, hw] at hsame
      | knot l body => cases hv.root.label?
      | back l c => exact absurd rfl (hv.root.closed l c)
      | record kind token xs =>
        cases token <;> cases w <;> first | exact absurd hsame Bool.false_ne_true | simp [Value.unfold] at hw
      | _ => cases w <;> first | exact absurd hsame Bool.false_ne_true | simp [Value.unfold] at hw
  simp only [Predicate.check, larder, Bool.eq_iff_iff.mpr hempty]
  split_ifs <;> rfl

/-- A basket that counts what it holds, with something else in it besides. -/
def basket : Schema :=
  .intersection [
    .object ⟨[⟨.name "total", .literal (.mapping [(.string "pears", .int 2), (.string "figs", .int 1)]), .required⟩],
      some ⟨.keyword .string, .union [.tuple [⟨.variadic, .keyword .object⟩], .keyword .null]⟩, .reject⟩,
    .constrained (.object ⟨[], none, .ignore⟩) [.predicate ⟨"filled", "filled"⟩]]

theorem validate_reordered_basket :
    let pear : Value := .mapping [(.string "kind", .string "pear"), (.string "ripe", .bool true)]
    let raep : Value := .mapping [(.string "ripe", .bool true), (.string "kind", .string "pear")]
    let v : Value := .mapping [(.string "total", .mapping [(.string "figs", .int 1), (.string "pears", .int 2)]),
      (.string "left", .list [pear]), (.string "right", .null)]
    let w : Value := .mapping [(.string "right", .null), (.string "left", .list [raep]),
      (.string "total", .mapping [(.string "pears", .int 2), (.string "figs", .int 1)])]
    basket.Every (Schema.SelfContained larder.hooks) ∧ v.Every Value.Orderly ∧ v.Reorders w ∧
      (∀ a b, larder.validate Config.default basket v = .ok a → larder.validate Config.default basket w = .ok b →
        EqualAnswer a b) ∧
      (∃ a, larder.validate Config.default basket v = .ok (.ok a)) ∧
      ∃ b, larder.validate Config.default basket w = .ok (.ok b) := by
  intro pear raep v w
  have hbasket : basket.Every fun t => t.SelfContained larder.hooks ∧ t.Sound := by
    have leaf : ∀ {k : Keyword}, (Schema.keyword k).Every fun t => t.SelfContained larder.hooks ∧ t.Sound :=
      .intro ⟨trivial, trivial⟩ (List.forall_mem_nil _)
    refine .intro ⟨trivial, trivial⟩ (List.forall_mem_cons.mpr ⟨?_, List.forall_mem_singleton.mpr ?_⟩)
    · refine .intro ⟨⟨by decide, by simp [Presence.default?]⟩, trivial⟩ (List.forall_mem_cons.mpr ⟨?_,
        List.forall_mem_cons.mpr ⟨leaf, List.forall_mem_singleton.mpr ?_⟩⟩)
      · exact .intro ⟨trivial, trivial⟩ (List.forall_mem_nil _)
      · refine .intro ⟨trivial, trivial⟩ (List.forall_mem_cons.mpr ⟨?_, List.forall_mem_singleton.mpr leaf⟩)
        exact .intro ⟨List.forall_mem_singleton.mpr rfl, trivial⟩ (List.forall_mem_singleton.mpr leaf)
    · refine .intro ⟨List.forall_mem_singleton.mpr (larder_extensional _), List.forall_mem_singleton.mpr trivial⟩ ?_
      exact List.forall_mem_singleton.mpr (.intro ⟨⟨List.nodup_nil, List.forall_mem_nil _⟩, trivial⟩
        (List.forall_mem_nil _))
  have hs := hbasket.mono fun _ => And.left
  have hv : v.Every Value.Orderly := by
    have number : ∀ n, (Value.int n).Every Value.Orderly := fun n => Value.orderly_of_scalar rfl rfl
    have htotal : (Value.mapping [(.string "figs", .int 1), (.string "pears", .int 2)]).Every Value.Orderly :=
      Value.orderly_of_keys [.name "figs", .name "pears"] rfl (by decide)
        (List.forall_mem_cons.mpr ⟨number 1, List.forall_mem_singleton.mpr (number 2)⟩)
    have hpear : pear.Every Value.Orderly :=
      Value.orderly_of_keys [.name "kind", .name "ripe"] rfl (by decide)
        (List.forall_mem_cons.mpr ⟨Value.orderly_of_key (.name "pear"), List.forall_mem_singleton.mpr
          (Value.orderly_of_scalar rfl rfl)⟩)
    refine Value.orderly_of_keys [.name "total", .name "left", .name "right"] rfl (by decide)
      (List.forall_mem_cons.mpr ⟨htotal, List.forall_mem_cons.mpr ⟨?_, List.forall_mem_singleton.mpr ?_⟩⟩)
    · exact Value.orderly_list (List.forall_mem_singleton.mpr hpear)
    · exact Value.orderly_of_key .index
  have h : v.Reorders w := by
    refine ⟨_, _, rfl, (List.reverse_perm _).symm, _, _, _, rfl, rfl, ?_, _, _, _, rfl, rfl, ?_, _, _, _, rfl, rfl, rfl,
      rfl⟩
    · exact ⟨_, _, rfl, .swap .., _, _, _, rfl, rfl, rfl, _, _, _, rfl, rfl, rfl, rfl⟩
    · exact ⟨_, rfl, _, _, rfl, ⟨_, _, rfl, .swap .., _, _, _, rfl, rfl, rfl, _, _, _, rfl, rfl, rfl, rfl⟩, rfl⟩
  obtain ⟨hsame, haccepts⟩ := @validate_reordered larder Config.default basket v w hs hv h
  have hleft : ∃ a, larder.validate Config.default basket v = .ok (.ok a) := ⟨_, rfl⟩
  exact ⟨hs, hv, h, hsame, hleft, (haccepts (Or.inl (hbasket.mono fun _ => And.right))).mp hleft⟩

/-- Whatever it is, but first what stands under the name "1" is read against a pattern that is no regular expression. -/
def misread : Schema :=
  .union [.intersection [.object ⟨[], none, .ignore⟩,
    .object ⟨[⟨.name "1", .constrained (.keyword .unknown) [.pattern ⟨"[", 0, none⟩], .required⟩], none, .ignore⟩],
    .keyword .unknown]

/-- Two keys that stand for the name "1": only if the text comes first does the pattern stop the check. -/
theorem validate_misread :
    let v : Value := .mapping [(.string "1", .int 2), (.int 1, .string "a")]
    let w : Value := .mapping [(.int 1, .string "a"), (.string "1", .int 2)]
    misread.Every (Schema.SelfContained larder.hooks) ∧ v.Every Value.Orderly ∧ v.Reorders w ∧
      larder.validate Config.default misread v = .ok (.ok v) ∧
      larder.validate Config.default misread w = .error (.check (.pattern .malformed)) := by
  intro v w
  have leaf : ∀ {k : Keyword}, (Schema.keyword k).Every (Schema.SelfContained larder.hooks) :=
    .intro trivial (List.forall_mem_nil _)
  refine ⟨?_, ?_, ⟨_, _, rfl, .swap .., _, _, _, rfl, rfl, rfl, _, _, _, rfl, rfl, rfl, rfl⟩, rfl, rfl⟩
  · refine .intro trivial (List.forall_mem_cons.mpr ⟨.intro trivial (List.forall_mem_cons.mpr ⟨?_,
      List.forall_mem_singleton.mpr ?_⟩), List.forall_mem_singleton.mpr leaf⟩)
    · exact .intro ⟨List.nodup_nil, List.forall_mem_nil _⟩ (List.forall_mem_nil _)
    · refine .intro ⟨by decide, List.forall_mem_singleton.mpr rfl⟩ (List.forall_mem_singleton.mpr ?_)
      exact .intro (List.forall_mem_singleton.mpr trivial) (List.forall_mem_singleton.mpr leaf)
  · have scalar : ∀ x : Value, x.isScalar = true → x.isNaN = false → x.Every Value.Orderly := fun _ =>
      Value.orderly_of_scalar
    refine Value.orderly_mapping ⟨List.forall_mem_cons.mpr ⟨rfl, List.forall_mem_singleton.mpr rfl⟩, by decide⟩
      (List.forall_mem_cons.mpr ⟨?_, List.forall_mem_singleton.mpr ?_⟩)
    · exact ⟨scalar (.string "1") rfl rfl, scalar (.int 2) rfl rfl⟩
    · exact ⟨scalar (.int 1) rfl rfl, scalar (.string "a") rfl rfl⟩

end Env
end Schemata
