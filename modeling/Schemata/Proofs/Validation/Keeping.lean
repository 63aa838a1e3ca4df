import Schemata.Proofs.Validation.Acceptance

/-! Two checks on one value, the second of which keeps what the first accepts: it accepts as well, or it stops with an
error. Where the outcome is looked at afterwards, it puts out the same. -/
namespace Schemata

/-- A run that ends as well as one that ended with `a`, with `a` itself where its result is `looked` at. An error is no
answer. -/
def Kept {α : Type} (good : α → Prop) (looked : Bool) (a : α) (x : Except Fault α) : Prop :=
  Ends x (fun b => good b ∧ (looked = true → b = a)) fun _ => True

theorem map_ok {ε α β : Type} {x : Except ε α} {f : α → β} {b : β} (h : x.map f = .ok b) :
    ∃ a, x = .ok a ∧ f a = b := by
  cases x with
  | error e => cases h
  | ok a => exact ⟨a, rfl, Except.ok.inj h⟩

namespace Kept

variable {α β : Type} {good : α → Prop} {fine : β → Prop} {looked : Bool} {a : α} {b : β} {x : Except Fault α}

theorem self (h : good a) : Kept good looked a (.ok a) := ⟨h, fun _ => rfl⟩

theorem bind {f : α → Except Fault β} (h : Kept good looked a x)
    (hf : ∀ a', good a' → (looked = true → a' = a) → Kept fine looked b (f a')) : Kept fine looked b (x >>= f) :=
  Ends.bind h fun a' ha => hf a' ha.1 ha.2

theorem map {f : α → β} (h : Kept good looked a x) (hf : ∀ a', good a' → fine (f a')) :
    Kept fine looked (f a) (x.map f) :=
  Ends.map h fun a' ha => ⟨hf a' ha.1, fun hl => congrArg f (ha.2 hl)⟩

/-- Of two runs, one after the other, both are kept. -/
theorem combine {γ : Type} {end' : γ → Prop} {y : Except Fault β} {f : α → β → γ} (hx : Kept good looked a x)
    (hy : Kept fine looked b y) (hf : ∀ a' b', good a' → fine b' → end' (f a' b')) :
    Kept end' looked (f a b) (do let a ← x; let b ← y; pure (f a b)) := by
  refine hx.bind fun a' ha hla => hy.bind fun b' hb hlb => ⟨hf a' b' ha hb, fun hl => ?_⟩
  rw [hla hl, hlb hl]

end Kept

namespace Check

variable {config : Config} {hooks : Hooks} {looked : Bool} {c c' : Check} {visit : Visit} {v : Value}

/-- What the first check accepts, the second one keeps. -/
def Keeps (looked : Bool) (c c' : Check) (visit : Visit) (v : Value) : Prop :=
  ∀ o, c visit v = .ok o → o.failures = [] → Kept (fun p => p.failures = []) looked o (c' visit v)

theorem Keeps.inside (h : c.Keeps looked c' visit.renewed v) {s : Segment} {o : Outcome}
    (ho : c.inside s visit v = .ok o) (hok : o.failures = []) :
    Kept (fun p => p.failures = []) looked o (c'.inside s visit v) := by
  unfold Check.inside at ho
  cases hc : c visit.renewed v with
  | error e => rw [hc] at ho; cases ho
  | ok p =>
    rw [hc] at ho
    obtain rfl := Except.ok.inj ho
    refine (h p hc ?_).map fun q hq => ?_
    · exact List.map_eq_nil_iff.mp hok
    · exact List.map_eq_nil_iff.mpr hq

/-- Constraints look at the output. -/
theorem constrained_keeps (h : c.Keeps true c' visit v) (cs : List Constraint) :
    (constrained hooks c cs).Keeps looked (constrained hooks c' cs) visit v := by
  intro o ho hok
  obtain ⟨hbase, -⟩ := constrained_ok ho (Outcome.isOk_iff.mpr hok)
  obtain ⟨p, hp, ho⟩ := bind_ok ho
  obtain rfl := Except.ok.inj (hbase.symm.trans hp)
  refine Ends.bind (h o hbase hok) fun q hq => ?_
  obtain rfl := hq.2 rfl
  rw [ho]
  exact Kept.self hok

theorem conjunction_cons_ok {cs : List Check} {o : Outcome} (h : conjunction (c :: cs) visit v = .ok o) :
    ∃ p q, c visit v = .ok p ∧ conjunction cs (if p.rebuilt then visit.renewed else visit) p.output = .ok q ∧
      o = ⟨q.output, p.rebuilt || q.rebuilt, p.failures ++ q.failures⟩ := by
  obtain ⟨p, hp, h⟩ := bind_ok h
  obtain ⟨q, hq, h⟩ := bind_ok h
  exact ⟨p, q, hp, hq, (Except.ok.inj h).symm⟩

/-- A member looks at what the one before it put out. -/
theorem conjunction_keeps {cs cs' : List Check} (hlast : cs = [] → cs' = [])
    (h : c.Keeps (looked || !cs.isEmpty) c' visit v)
    (hrest : ∀ p, c visit v = .ok p → p.failures = [] →
      (conjunction cs).Keeps looked (conjunction cs') (if p.rebuilt then visit.renewed else visit) p.output) :
    (conjunction (c :: cs)).Keeps looked (conjunction (c' :: cs')) visit v := by
  intro o ho hok
  obtain ⟨p, q, hp, hq, rfl⟩ := conjunction_cons_ok ho
  obtain ⟨hpok, hqok⟩ := List.append_eq_nil_iff.mp hok
  refine Ends.bind (h p hp hpok) fun p' hp' => ?_
  cases cs with
  | nil =>
    obtain rfl := hlast rfl
    obtain rfl := Except.ok.inj hq
    refine ⟨by simp [hp'.1, Outcome.pass], fun hl => ?_⟩
    rw [hp'.2 (by simp [hl])]
  | cons d ds =>
    obtain rfl := hp'.2 (by simp)
    refine (hrest p' hp hpok q hq hqok).bind fun q' hq' hl => ⟨by simp [hpok, hq'], fun hlook => ?_⟩
    rw [hl hlook]

section Union

variable {domains : Schema → Except Fault (Option DomainSet)} {s : Schema} {bs bs' : List (Schema × Check)}
  {o : Outcome}

/-- The search for an accepting branch ends with one. -/
def Finds (looked : Bool) (o : Outcome) (x : Except Fault (Outcome ⊕ List (Schema × List Failure))) : Prop :=
  Kept (fun a => ∃ p, a = .inl p ∧ p.failures = []) looked (.inl o) x

theorem firstAccepting_cons_inl (h : firstAccepting visit v ((s, c) :: bs) = .ok (.inl o)) :
    (c visit v = .ok o ∧ o.failures = []) ∨
      ∃ r, c visit v = .ok r ∧ r.isOk = false ∧ firstAccepting visit v bs = .ok (.inl o) := by
  obtain ⟨r, hr, h⟩ := bind_ok h
  cases hok : r.isOk with
  | true =>
    rw [hok] at h
    obtain rfl := Sum.inl.inj (Except.ok.inj h)
    exact Or.inl ⟨hr, Outcome.isOk_iff.mp hok⟩
  | false =>
    rw [hok] at h
    obtain ⟨rest, hrest, h⟩ := bind_ok h
    cases rest with
    | inl p => exact Or.inr ⟨r, hr, hok, (Except.ok.inj h) ▸ hrest⟩
    | inr attempts => exact absurd (Except.ok.inj h) (by simp)

theorem finds_first (h : Kept (fun p => p.failures = []) looked o (c' visit v)) :
    Finds looked o (firstAccepting visit v ((s, c') :: bs')) := by
  refine h.bind fun p hp hl => ?_
  rw [Outcome.isOk_iff.mpr hp]
  exact ⟨⟨p, rfl, hp⟩, fun hlook => by rw [hl hlook]⟩

/-- A branch before the one that was found may accept as well, where nobody looks at the difference. -/
theorem finds_later (h : ∀ p, c' visit v = .ok p → p.failures = [] → looked = true → p = o)
    (hrest : Finds looked o (firstAccepting visit v bs')) :
    Finds looked o (firstAccepting visit v ((s, c') :: bs')) := by
  unfold firstAccepting
  cases hc : c' visit v with
  | error e => trivial
  | ok p =>
    cases hok : p.isOk with
    | true =>
      simp only [bind, Except.bind, hok]
      exact ⟨⟨p, rfl, Outcome.isOk_iff.mp hok⟩, fun hl => by rw [h p hc (Outcome.isOk_iff.mp hok) hl]⟩
    | false =>
      simp only [bind, Except.bind, hok]
      refine Kept.bind hrest ?_
      rintro _ ⟨q, rfl, hq⟩ hl
      exact ⟨⟨q, rfl, hq⟩, hl⟩

theorem union_found (h : union domains bs visit v = .ok o) (hok : o.failures = []) :
    firstAccepting visit v bs = .ok (.inl o) := by
  unfold union at h
  obtain ⟨r, hr, h⟩ := bind_ok h
  rcases firstAccepting_cases hr with ⟨p, rfl, -, -⟩ | ⟨attempts, rfl, hno⟩
  · rw [hr, Except.ok.inj h]
  · obtain ⟨fss, hfss, h⟩ := bind_ok h
    dsimp only at h
    split at h
    · rename_i fs
      obtain ⟨a, ha, rfl⟩ := matching_subset hfss fs (by simp)
      rw [← Except.ok.inj h] at hok
      exact absurd hok (hno a ha)
    · rw [← Except.ok.inj h] at hok
      simp [Outcome.fail] at hok

theorem union_keeps (h : firstAccepting visit v bs = .ok (.inl o) → Finds looked o (firstAccepting visit v bs'))
    (ho : union domains bs visit v = .ok o) (hok : o.failures = []) :
    Kept (fun p => p.failures = []) looked o (union domains bs' visit v) := by
  refine Kept.bind (h (union_found ho hok)) ?_
  rintro _ ⟨p, rfl, hp⟩ hl
  exact ⟨hp, fun hlook => Sum.inl.inj (hl hlook)⟩

end Union

section Containers

variable {depth : Nat} {s : Segment} {es : List Entry}

/-- A default is looked at where defaults are checked. -/
theorem default_keeps {d : Producer} (h : ∀ w, config.defensiveDefaults = true →
      d.produce hooks (visit.depth + 1) = .ok w → c.Keeps looked c' visit.renewed w) {o : Outcome}
    (ho : default config hooks c d s visit = .ok o) (hok : o.failures = []) :
    Kept (fun p => p.failures = []) looked o (default { config with maxDepth := depth } hooks c' d s visit) := by
  obtain ⟨w, hw, ho⟩ := bind_ok ho
  unfold default
  rw [hw]
  show Kept _ looked o (if config.defensiveDefaults then c'.inside s visit w else pure (.pass w))
  split_ifs at ho ⊢ with hd
  · exact (h w hd hw).inside ho hok
  · rw [← Except.ok.inj ho]
    exact Kept.self rfl

/-- The part of a value, or the default, that a property checks. -/
def Given? (config : Config) (hooks : Hooks) (visit : Visit) (es : List Entry) (key : Key) (presence : Presence)
    (w : Value) : Prop :=
  match Entry.given? config.exactOptional es key presence with
  | some e => w = e.item
  | none => ∃ d, presence = .defaultable d ∧ config.defensiveDefaults = true ∧
      d.produce hooks (visit.depth + 1) = .ok w

theorem property_keeps {key : Key} {presence : Presence}
    (h : ∀ w, Given? config hooks visit es key presence w → c.Keeps looked c' visit.renewed w) {r : Rebuilt}
    (hr : property config hooks visit es ⟨key, c, presence⟩ = .ok r) (hok : r.failures = []) :
    Kept (fun r => r.failures = []) looked r
      (property { config with maxDepth := depth } hooks visit es ⟨key, c', presence⟩) := by
  unfold Given? at h
  unfold property at hr ⊢
  have hgiven : ∀ c, given? config es ⟨key, c, presence⟩ = Entry.given? config.exactOptional es key presence :=
    fun _ => rfl
  have hdeeper : given? { config with maxDepth := depth } es ⟨key, c', presence⟩ =
      Entry.given? config.exactOptional es key presence := rfl
  rw [hgiven] at hr
  rw [hdeeper]
  cases hg : Entry.given? config.exactOptional es key presence with
  | some e =>
    simp only [hg] at hr h
    cases hi : c.inside (.ofKey key) visit e.item with
    | error f => rw [hi] at hr; cases hr
    | ok o =>
      rw [hi] at hr
      obtain rfl := Except.ok.inj hr
      exact ((h e.item rfl).inside hi hok).map fun p hp => hp
  | none =>
    simp only [hg] at hr h
    cases presence with
    | required =>
      obtain rfl := Except.ok.inj hr
      simp [Rebuilt.failure] at hok
    | optional =>
      obtain rfl := Except.ok.inj hr
      exact Kept.self rfl
    | defaultable d =>
      dsimp only at hr ⊢
      cases hi : default config hooks c d (.ofKey key) visit with
      | error f => rw [hi] at hr; cases hr
      | ok o =>
        rw [hi] at hr
        obtain rfl := Except.ok.inj hr
        exact (default_keeps (fun w hd hw => h w ⟨d, rfl, hd, hw⟩) hi hok).map fun p hp => hp

variable {k k' : Schema → Check}

theorem properties_keeps {ps : List (Property Schema)} (h : ∀ p ∈ ps, ∀ w,
      Given? config hooks visit es p.key p.presence w → (k p.value).Keeps looked (k' p.value) visit.renewed w)
    {r : Rebuilt} (hr : properties config hooks visit es (ps.map fun p => ⟨p.key, k p.value, p.presence⟩) = .ok r)
    (hok : r.failures = []) : Kept (fun r => r.failures = []) looked r (properties { config with maxDepth := depth }
      hooks visit es (ps.map fun p => ⟨p.key, k' p.value, p.presence⟩)) := by
  induction ps generalizing r with
  | nil =>
    obtain rfl := Except.ok.inj hr
    exact Kept.self rfl
  | cons p ps ih =>
    rw [List.forall_mem_cons] at h
    obtain ⟨r₁, r₂, h₁, h₂, rfl⟩ := combine_ok hr
    obtain ⟨hok₁, hok₂⟩ := List.append_eq_nil_iff.mp hok
    exact (property_keeps h.1 h₁ hok₁).combine (ih h.2 h₂ hok₂) fun _ _ ha hb => List.append_eq_nil_iff.mpr ⟨ha, hb⟩

/-- The checks of an index signature on an undeclared entry. A key that only the second check takes has to make no
difference. -/
structure IndexKeeps (looked : Bool) (policy : Policy) (k k' : Schema → Check) (visit : Visit) (e : Entry)
    (i : IndexSignature Schema) : Prop where
  key : (k i.key).Keeps false (k' i.key) visit.renewed e.key.toValue
  value : ∀ p, k i.key visit.renewed e.key.toValue = .ok p → p.failures = [] →
    (k i.value).Keeps looked (k' i.value) visit.renewed e.item
  taken : ∀ p q o, k i.key visit.renewed e.key.toValue = .ok p → p.isOk = false →
    k' i.key visit.renewed e.key.toValue = .ok q → q.failures = [] → k' i.value visit.renewed e.item = .ok o →
    o.failures = [] ∧ (looked = true → policy = .ignore ∧ o.output = e.item)

/-- The checks of an object's parts. -/
def ofShape (k : Schema → Check) (o : ObjectShape Schema) : ObjectShape Check :=
  ⟨o.properties.map fun p => ⟨p.key, k p.value, p.presence⟩, o.index.map fun i => ⟨k i.key, k i.value⟩, o.undeclared⟩

theorem ofShape_declares (k : Schema → Check) (o : ObjectShape Schema) (key : Key) :
    (ofShape k o).declares key = o.declares key := by
  simp [ObjectShape.declares, ofShape, Function.comp_def]

variable {o : ObjectShape Schema} {e : Entry} {r : Rebuilt}

/-- The index signature goes first where there is one; then the policy decides, which looks at no check. -/
theorem undeclared_eq (shape : ObjectShape Check) : undeclared shape visit e =
    match shape.index with
    | none => undeclared ⟨[], none, shape.undeclared⟩ visit e
    | some i => i.key visit.renewed e.key.toValue >>= fun p =>
      if p.isOk then (i.value.inside (.ofKey e.key) visit e.item).map (Rebuilt.item e.key)
      else undeclared ⟨[], none, shape.undeclared⟩ visit e := by
  obtain ⟨properties, index, policy⟩ := shape
  cases index with
  | none => rfl
  | some i =>
    unfold undeclared indexTakes accepts
    dsimp only
    cases i.key visit.renewed e.key.toValue with
    | error f => rfl
    | ok p =>
      dsimp only [Except.map, bind, Except.bind, pure, Except.pure]
      cases p.isOk <;> rfl

theorem undeclared_keeps (hi : ∀ i, o.index = some i → IndexKeeps looked o.undeclared k k' visit e i)
    (hr : undeclared (ofShape k o) visit e = .ok r) (hok : r.failures = []) :
    Kept (fun r => r.failures = []) looked r (undeclared (ofShape k' o) visit e) := by
  rw [undeclared_eq] at hr ⊢
  cases hindex : o.index with
  | none =>
    simp only [ofShape, hindex, Option.map_none] at hr ⊢
    exact hr ▸ Kept.self hok
  | some i =>
    obtain ⟨hkey, hvalue, htaken⟩ := hi i hindex
    simp only [ofShape, hindex, Option.map_some] at hr ⊢
    obtain ⟨p, hp, hr⟩ := bind_ok hr
    cases hpok : p.isOk with
    | true =>
      have hp' := Outcome.isOk_iff.mp hpok
      rw [hpok, if_pos rfl] at hr
      obtain ⟨q, hq, rfl⟩ := map_ok hr
      refine Ends.bind (hkey p hp hp') fun p' hp' => ?_
      rw [Outcome.isOk_iff.mpr hp'.1, if_pos rfl]
      exact ((hvalue p hp (Outcome.isOk_iff.mp hpok)).inside hq hok).map fun _ h => h
    | false =>
      rw [hpok, if_neg Bool.false_ne_true] at hr
      cases hq : k' i.key visit.renewed e.key.toValue with
      | error f => trivial
      | ok q =>
        dsimp only [bind, Except.bind]
        cases hqok : q.isOk with
        | false => exact hr ▸ Kept.self hok
        | true =>
          rw [if_pos rfl]
          cases hrun : k' i.value visit.renewed e.item with
          | error f => simp [Check.inside, hrun, Except.map, Kept, Ends]
          | ok t =>
            obtain ⟨ht, hl⟩ := htaken p q t hp hpok hq (Outcome.isOk_iff.mp hqok) hrun
            simp only [Check.inside, hrun, Except.map, Kept, Ends, Rebuilt.item, Outcome.within, ht, List.map_nil,
              true_and]
            intro hlook
            obtain ⟨hpolicy, hout⟩ := hl hlook
            rw [hpolicy] at hr
            rw [← Except.ok.inj hr, hout]
            rfl

theorem undeclaredAll_cons (shape : ObjectShape Check) : undeclaredAll shape visit (e :: es) =
    (if shape.declares e.key then Except.ok .empty else undeclared shape visit e) >>= fun r =>
      undeclaredAll shape visit es >>= fun rest => pure (r.append rest) := by
  conv_lhs => unfold undeclaredAll
  split_ifs <;> rfl

theorem undeclaredAll_keeps (hi : ∀ e ∈ es, o.declares e.key = false → ∀ i, o.index = some i →
      IndexKeeps looked o.undeclared k k' visit e i)
    (hr : undeclaredAll (ofShape k o) visit es = .ok r) (hok : r.failures = []) :
    Kept (fun r => r.failures = []) looked r (undeclaredAll (ofShape k' o) visit es) := by
  induction es generalizing r with
  | nil =>
    obtain rfl := Except.ok.inj hr
    exact Kept.self rfl
  | cons e es ih =>
    rw [List.forall_mem_cons] at hi
    rw [undeclaredAll_cons, ofShape_declares] at hr ⊢
    obtain ⟨r₁, r₂, h₁, h₂, rfl⟩ := combine_ok hr
    obtain ⟨hok₁, hok₂⟩ := List.append_eq_nil_iff.mp hok
    refine Kept.combine ?_ (ih hi.2 h₂ hok₂) fun _ _ ha hb => List.append_eq_nil_iff.mpr ⟨ha, hb⟩
    cases hd : o.declares e.key with
    | true =>
      simp only [hd, if_true] at h₁ ⊢
      exact h₁ ▸ Kept.self hok₁
    | false =>
      simp only [hd, Bool.false_eq_true, if_false] at h₁ ⊢
      exact undeclared_keeps (hi.1 hd) h₁ hok₁

theorem object_keeps (hp : ∀ raw, v.entries? = some raw → ∀ p ∈ o.properties, ∀ w,
      Given? config hooks visit (Entry.collect [] raw).1 p.key p.presence w →
      (k p.value).Keeps looked (k' p.value) visit.renewed w)
    (hi : ∀ raw, v.entries? = some raw → ∀ e ∈ (Entry.collect [] raw).1, o.declares e.key = false →
      ∀ i, o.index = some i → IndexKeeps looked o.undeclared k k' visit e i) :
    (object config hooks (ofShape k o)).Keeps looked
      (object { config with maxDepth := depth } hooks (ofShape k' o)) visit v := by
  intro out hout hok
  obtain ⟨raw, r₁, r₂, hraw, hkeys, h₁, h₂, hok₁, hok₂, rfl⟩ := object_ok hout (Outcome.isOk_iff.mpr hok)
  unfold object
  simp only [hraw]
  refine (properties_keeps (hp raw hraw) h₁ hok₁).combine (undeclaredAll_keeps (hi raw hraw) h₂ hok₂) ?_
  intro a b ha hb
  simp [Rebuilt.append, hkeys, ha, hb]

variable {items : List Value} {os : List Outcome}

/-- The checks of a tuple's elements. -/
def ofElements (k : Schema → Check) (es : List (Element Schema)) : List (Element Check) :=
  es.map fun e => ⟨e.role, k e.value⟩

@[simp] theorem fixed_ofElements (k : Schema → Check) (es : List (Element Schema)) :
    Element.fixed (ofElements k es) = ofElements k (Element.fixed es) := List.filter_map

@[simp] theorem trailing_ofElements (k : Schema → Check) (es : List (Element Schema)) :
    Element.trailing (ofElements k es) = ofElements k (Element.trailing es) := List.filter_map

@[simp] theorem variadic_ofElements (k : Schema → Check) (es : List (Element Schema)) :
    Element.variadic? (ofElements k es) = (Element.variadic? es).map fun e => ⟨e.role, k e.value⟩ :=
  List.find?_map

@[simp] theorem length_ofElements (k : Schema → Check) (es : List (Element Schema)) :
    (ofElements k es).length = es.length := List.length_map _

theorem fixedElements_keeps {es : List (Element Schema)} {i : Nat}
    (h : ∀ t ∈ (es.map (·.value)).zip items, (k t.1).Keeps looked (k' t.1) visit.renewed t.2)
    (hd : ∀ e ∈ es.drop items.length, ∀ d w, e.role = .defaultable d → config.defensiveDefaults = true →
      d.produce hooks (visit.depth + 1) = .ok w → (k e.value).Keeps looked (k' e.value) visit.renewed w)
    (hos : fixedElements config hooks visit i (ofElements k es) items = .ok os)
    (hok : Outcome.allFailures os = []) : Kept (fun os => Outcome.allFailures os = []) looked os
      (fixedElements { config with maxDepth := depth } hooks visit i (ofElements k' es) items) := by
  induction es generalizing i items os with
  | nil =>
    have hnil : ∀ config k, fixedElements config hooks visit i (ofElements k []) items = .ok [] := by
      intro config k
      cases items <;> rfl
    rw [hnil] at hos ⊢
    exact hos ▸ Kept.self hok
  | cons e es ih =>
    cases items with
    | cons x items =>
      obtain ⟨p, ps, hp, hps, rfl⟩ := combine_ok hos
      obtain ⟨hpok, hpsok⟩ := allFailures_cons.mp hok
      simp only [List.map_cons, List.zip_cons_cons, List.forall_mem_cons] at h
      exact (h.1.inside hp hpok).combine (ih h.2 hd hps hpsok) fun _ _ ha hb => allFailures_cons.mpr ⟨ha, hb⟩
    | nil =>
      simp only [List.length_nil, List.drop_zero, List.forall_mem_cons] at hd
      cases hrole : e.role with
      | defaultable d =>
        simp only [ofElements, List.map_cons, fixedElements, hrole] at hos ⊢
        obtain ⟨p, ps, hp, hps, rfl⟩ := combine_ok hos
        obtain ⟨hpok, hpsok⟩ := allFailures_cons.mp hok
        exact (default_keeps (fun w => hd.1 d w hrole) hp hpok).combine
          (ih (by simp) (by simpa using hd.2) hps hpsok) fun _ _ ha hb => allFailures_cons.mpr ⟨ha, hb⟩
      | _ =>
        simp only [ofElements, List.map_cons, fixedElements, hrole] at hos ⊢
        exact hos ▸ Kept.self hok

theorem repeatedElement_keeps {i : Nat} (h : ∀ x ∈ items, c.Keeps looked c' visit.renewed x)
    (hos : repeatedElement c visit i items = .ok os) (hok : Outcome.allFailures os = []) :
    Kept (fun os => Outcome.allFailures os = []) looked os (repeatedElement c' visit i items) := by
  induction items generalizing i os with
  | nil => exact hos ▸ Kept.self hok
  | cons x items ih =>
    rw [List.forall_mem_cons] at h
    obtain ⟨p, ps, hp, hps, rfl⟩ := combine_ok hos
    obtain ⟨hpok, hpsok⟩ := allFailures_cons.mp hok
    exact (h.1.inside hp hpok).combine (ih h.2 hps hpsok) fun _ _ ha hb => allFailures_cons.mpr ⟨ha, hb⟩

theorem trailingElements_keeps {es : List (Element Schema)} {i : Nat}
    (h : ∀ t ∈ (es.map (·.value)).zip items, (k t.1).Keeps looked (k' t.1) visit.renewed t.2)
    (hos : trailingElements visit i (ofElements k es) items = .ok os) (hok : Outcome.allFailures os = []) :
    Kept (fun os => Outcome.allFailures os = []) looked os
      (trailingElements visit i (ofElements k' es) items) := by
  induction es generalizing i items os with
  | nil => exact hos ▸ Kept.self hok
  | cons e es ih =>
    cases items with
    | nil => exact hos ▸ Kept.self hok
    | cons x items =>
      obtain ⟨p, ps, hp, hps, rfl⟩ := combine_ok hos
      obtain ⟨hpok, hpsok⟩ := allFailures_cons.mp hok
      simp only [List.map_cons, List.zip_cons_cons, List.forall_mem_cons] at h
      exact (h.1.inside hp hpok).combine (ih h.2 hps hpsok) fun _ _ ha hb => allFailures_cons.mpr ⟨ha, hb⟩

/-- Elements before the variadic one that are left without an item. -/
def missing (es : List (Element Schema)) (items : List Value) : List (Element Schema) :=
  (Element.fixed es).drop (items.length - (Element.trailing es).length)

theorem elements_keeps {es : List (Element Schema)}
    (h : ∀ t ∈ Element.places es items, (k t.1).Keeps looked (k' t.1) visit.renewed t.2)
    (hd : ∀ e ∈ missing es items, ∀ d w, e.role = .defaultable d → config.defensiveDefaults = true →
      d.produce hooks (visit.depth + 1) = .ok w → (k e.value).Keeps looked (k' e.value) visit.renewed w)
    (hos : elements config hooks (ofElements k es) visit items = .ok os) (hok : Outcome.allFailures os = []) :
    Kept (fun os => Outcome.allFailures os = []) looked os
      (elements { config with maxDepth := depth } hooks (ofElements k' es) visit items) := by
  have hfront : (items.take (items.length - (Element.trailing es).length)).length =
      items.length - (Element.trailing es).length := by simp
  unfold Element.places at h
  dsimp only at h
  rw [List.forall_mem_append] at h
  unfold elements at hos ⊢
  simp only [fixed_ofElements, trailing_ofElements, length_ofElements, variadic_ofElements] at hos ⊢
  obtain ⟨head, hhead, hos⟩ := bind_ok hos
  cases hv : Element.variadic? es with
  | none =>
    simp only [hv, Option.map_none] at hos ⊢
    obtain rfl := Except.ok.inj hos
    exact (fixedElements_keeps h.1 (by rw [hfront]; exact hd) hhead hok).bind fun _ ha hl => ⟨ha, hl⟩
  | some e =>
    simp only [hv, Option.map_some] at hos h ⊢
    rw [List.forall_mem_append, List.forall_mem_map] at h
    obtain ⟨middle, tail, hmiddle, htail, rfl⟩ := combine_ok hos
    obtain ⟨hok, htailok⟩ := allFailures_append.mp hok
    obtain ⟨hheadok, hmiddleok⟩ := allFailures_append.mp hok
    refine (fixedElements_keeps h.1 (by rw [hfront]; exact hd) hhead hheadok).bind fun _ ha hla => ?_
    refine (repeatedElement_keeps h.2.1 hmiddle hmiddleok).bind fun _ hb hlb => ?_
    refine (trailingElements_keeps h.2.2 htail htailok).bind fun _ hc hlc => ⟨?_, fun hl => ?_⟩
    · exact allFailures_append.mpr ⟨allFailures_append.mpr ⟨ha, hb⟩, hc⟩
    · rw [hla hl, hlb hl, hlc hl]

theorem tuple_keeps {es : List (Element Schema)}
    (h : ∀ q items, v.items? = some (q, items) → ∀ t ∈ Element.places es items,
      (k t.1).Keeps looked (k' t.1) visit.renewed t.2)
    (hd : ∀ q items, v.items? = some (q, items) → ∀ e ∈ missing es items, ∀ d w, e.role = .defaultable d →
      config.defensiveDefaults = true → d.produce hooks (visit.depth + 1) = .ok w →
      (k e.value).Keeps looked (k' e.value) visit.renewed w) :
    (tuple config hooks es (ofElements k es)).Keeps looked
      (tuple { config with maxDepth := depth } hooks es (ofElements k' es)) visit v := by
  intro out hout hok
  obtain ⟨q, items, os, hi, hfit, hos, hclean, rfl⟩ := tuple_ok hout (Outcome.isOk_iff.mpr hok)
  have hfits : lengthFits (ofElements k' es) items.length = lengthFits (ofElements k es) items.length := by
    unfold lengthFits Element.leastLength Element.greatestLength?
    simp [ofElements, List.countP_map, Function.comp_def]
  unfold tuple
  simp only [hi, hfits, hfit, if_true]
  refine (elements_keeps (h q items hi) (hd q items hi) hos hclean).bind fun os' ha hl => ⟨ha, fun hlook => ?_⟩
  rw [hl hlook]

end Containers

end Check
end Schemata
