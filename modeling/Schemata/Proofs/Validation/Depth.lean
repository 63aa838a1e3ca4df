import Schemata.Proofs.Validation.Keeping

/-! A higher bound on the references that may be followed. What is accepted under the lower bound is accepted under
the higher one, unless the check then stops with an error, or the lower bound misled a trial. -/
namespace Schemata

namespace Env

variable {env : Env} {config config' : Config}

/-- On the way to an acceptance the lower bound made a trial say no, and the higher bound shows it. At most `n`
references may be followed, and `n'` of them under the higher bound. Either an index signature refused a key that it
takes under the higher bound, where its value then refuses the item or, being `looked` at, puts out something else; or
a union passed over a branch that accepts with another outcome, and that outcome is looked at. Looked at is what a
constraint or a later member of a conjunction is given. -/
inductive Misled (env : Env) (config config' : Config) : Nat → Nat → Bool → Schema → Visit → Value → Prop
  | key {n n' : Nat} {looked : Bool} {o : ObjectShape Schema} {i : IndexSignature Schema} {visit : Visit} {v : Value}
      {raw : List (Value × Value)} {e : Entry} {p q r : Outcome} : v.entries? = some raw →
      e ∈ (Entry.collect [] raw).1 → o.declares e.key = false → o.index = some i →
      env.checkWithin config n i.key visit.renewed e.key.toValue = .ok p → p.isOk = false →
      env.checkWithin config' n' i.key visit.renewed e.key.toValue = .ok q → q.isOk = true →
      env.checkWithin config' n' i.value visit.renewed e.item = .ok r →
      (r.isOk = false ∨ looked = true ∧ (o.undeclared = .ignore → r.output ≠ e.item)) →
      Misled env config config' n n' looked (.object o) visit v
  | passedOver {n n' : Nat} {s : Schema} {bs : List Schema} {visit : Visit} {v : Value} {o p q : Outcome} :
      env.checkWithin config n s visit v = .ok p → p.isOk = false →
      env.checkWithin config n (.union bs) visit v = .ok o → o.isOk = true →
      env.checkWithin config' n' s visit v = .ok q → q.isOk = true → q ≠ o →
      Misled env config config' n n' true (.union (s :: bs)) visit v
  | base {n n' : Nat} {looked : Bool} {s : Schema} {cs : List Constraint} {visit : Visit} {v : Value} :
      Misled env config config' n n' true s visit v →
      Misled env config config' n n' looked (.constrained s cs) visit v
  | branch {n n' : Nat} {looked : Bool} {s : Schema} {bs : List Schema} {visit : Visit} {v : Value} {p : Outcome} :
      env.checkWithin config n s visit v = .ok p → p.isOk = true →
      Misled env config config' n n' looked s visit v →
      Misled env config config' n n' looked (.union (s :: bs)) visit v
  | laterBranch {n n' : Nat} {looked : Bool} {s : Schema} {bs : List Schema} {visit : Visit} {v : Value}
      {p : Outcome} : env.checkWithin config n s visit v = .ok p → p.isOk = false →
      Misled env config config' n n' looked (.union bs) visit v →
      Misled env config config' n n' looked (.union (s :: bs)) visit v
  | member {n n' : Nat} {looked : Bool} {s : Schema} {ms : List Schema} {visit : Visit} {v : Value} :
      Misled env config config' n n' (looked || !ms.isEmpty) s visit v →
      Misled env config config' n n' looked (.intersection (s :: ms)) visit v
  | laterMember {n n' : Nat} {looked : Bool} {s : Schema} {ms : List Schema} {visit : Visit} {v : Value}
      {p : Outcome} : env.checkWithin config n s visit v = .ok p → p.isOk = true →
      Misled env config config' n n' looked (.intersection ms) (if p.rebuilt then visit.renewed else visit) p.output →
      Misled env config config' n n' looked (.intersection (s :: ms)) visit v
  | property {n n' : Nat} {looked : Bool} {o : ObjectShape Schema} {visit : Visit} {v w : Value}
      {raw : List (Value × Value)} {p : Property Schema} : v.entries? = some raw → p ∈ o.properties →
      Check.Given? config env.hooks visit (Entry.collect [] raw).1 p.key p.presence w →
      Misled env config config' n n' looked p.value visit.renewed w →
      Misled env config config' n n' looked (.object o) visit v
  | indexed {n n' : Nat} {looked : Bool} {o : ObjectShape Schema} {i : IndexSignature Schema} {visit : Visit}
      {v : Value} {raw : List (Value × Value)} {e : Entry} {p : Outcome} : v.entries? = some raw →
      e ∈ (Entry.collect [] raw).1 → o.declares e.key = false → o.index = some i →
      env.checkWithin config n i.key visit.renewed e.key.toValue = .ok p → p.isOk = true →
      Misled env config config' n n' looked i.value visit.renewed e.item →
      Misled env config config' n n' looked (.object o) visit v
  | element {n n' : Nat} {looked : Bool} {es : List (Element Schema)} {visit : Visit} {v : Value} {q : Value.Sequence}
      {items : List Value} {t : Schema × Value} : v.items? = some (q, items) → t ∈ Element.places es items →
      Misled env config config' n n' looked t.1 visit.renewed t.2 →
      Misled env config config' n n' looked (.tuple es) visit v
  | missing {n n' : Nat} {looked : Bool} {es : List (Element Schema)} {visit : Visit} {v w : Value} {q : Value.Sequence}
      {items : List Value} {e : Element Schema} {d : Producer} : v.items? = some (q, items) →
      e ∈ Check.missing es items → e.role = .defaultable d → config.defensiveDefaults = true →
      d.produce env.hooks (visit.depth + 1) = .ok w →
      Misled env config config' n n' looked e.value visit.renewed w →
      Misled env config config' n n' looked (.tuple es) visit v
  | ref {n n' : Nat} {looked : Bool} {r : Ref} {t : Schema} {visit inner : Visit} {v : Value} :
      env.resolve r = .ok t → visit.enter? r v = some inner →
      Misled env config config' n n' looked t inner v →
      Misled env config config' (n + 1) (n' + 1) looked (.ref r) visit v

end Env

namespace Schema

variable {env : Env} {config : Config} {follow : Ref → Check} {v : Value}

/-- A scalar that is accepted is put out as it is. -/
theorem checkWith_scalar (hv : v.isScalar = true)
    (hf : ∀ r visit o, follow r visit v = .ok o → o.failures = [] → o = .pass v) (s : Schema) {visit : Visit}
    {o : Outcome} (h : s.checkWith env config follow visit v = .ok o) (hok : o.failures = []) : o = .pass v := by
  induction s using induction_on_parts generalizing visit o with
  | _ s ih =>
    cases s with
    | keyword k =>
      obtain rfl := Except.ok.inj h
      exact congrArg (Outcome.mk v false) hok
    | literal w =>
      exact (Check.literal_ok h (Outcome.isOk_iff.mpr hok)).1
    | constrained s cs =>
      exact ih s (by simp [parts]) (Check.constrained_ok h (Outcome.isOk_iff.mpr hok)).1 hok
    | union bs =>
      rw [checkWith, branchChecks_eq] at h
      obtain ⟨b, hb, hrun⟩ := Check.union_ok h (Outcome.isOk_iff.mpr hok)
      obtain ⟨s, hs, rfl⟩ := List.mem_map.mp hb
      exact ih s hs hrun hok
    | intersection ms =>
      rw [checkWith, memberChecks_eq] at h
      change ∀ t ∈ ms, _ at ih
      induction ms generalizing visit o with
      | nil => exact (Except.ok.inj h).symm
      | cons m ms ihms =>
        rw [List.forall_mem_cons] at ih
        obtain ⟨p, q, hp, hq, rfl⟩ := Check.conjunction_cons_ok h
        obtain ⟨hpok, hqok⟩ := List.append_eq_nil_iff.mp hok
        obtain rfl := ih.1 hp hpok
        obtain rfl := ihms hqok hq ih.2
        rfl
    | ref r => exact hf r visit o h hok
    | object o =>
      obtain ⟨_, _, _, hraw, -⟩ := Check.object_ok h (Outcome.isOk_iff.mpr hok)
      simp [Value.entries_of_scalar hv] at hraw
    | tuple es =>
      obtain ⟨_, _, _, hi, -⟩ := Check.tuple_ok h (Outcome.isOk_iff.mpr hok)
      simp [Value.items_of_scalar hv] at hi

end Schema

theorem Key.isScalar_toValue (k : Key) : k.toValue.isScalar = true := by cases k <;> rfl

namespace Env

variable {env : Env} {config config' : Config} {n n' : Nat} {looked : Bool} {s : Schema} {visit : Visit} {v : Value}

theorem checkWithin_scalar (hv : v.isScalar = true) (n : Nat) (s : Schema) {visit : Visit} {o : Outcome}
    (h : env.checkWithin config n s visit v = .ok o) (hok : o.failures = []) : o = .pass v := by
  induction n generalizing s visit o with
  | zero =>
    refine Schema.checkWith_scalar hv (fun r visit o h hok => ?_) s h hok
    obtain rfl := Except.ok.inj h
    simp [Outcome.fail] at hok
  | succ n ih =>
    refine Schema.checkWith_scalar hv (fun r visit o h hok => ?_) s h hok
    obtain ⟨t, -, h⟩ := bind_ok h
    cases hin : visit.enter? r v with
    | none =>
      rw [hin] at h
      exact (Except.ok.inj h).symm
    | some inner =>
      rw [hin] at h
      exact ih t h hok

/-- No trial on a scalar can be misled: what is accepted has one outcome only. -/
theorem not_misled_scalar (hv : v.isScalar = true) : ¬ env.Misled config config' n n' looked s visit v := by
  intro h
  induction h with
  | key hraw => simp [Value.entries_of_scalar hv] at hraw
  | passedOver _ _ ho hok hq hqok hne =>
    have ho := checkWithin_scalar hv _ _ ho (Outcome.isOk_iff.mp hok)
    exact hne ((checkWithin_scalar hv _ _ hq (Outcome.isOk_iff.mp hqok)).trans ho.symm)
  | base _ ih => exact ih hv
  | branch _ _ _ ih => exact ih hv
  | laterBranch _ _ _ ih => exact ih hv
  | member _ ih => exact ih hv
  | laterMember hp hok _ ih =>
    obtain rfl := checkWithin_scalar hv _ _ hp (Outcome.isOk_iff.mp hok)
    exact ih hv
  | property hraw => simp [Value.entries_of_scalar hv] at hraw
  | indexed hraw => simp [Value.entries_of_scalar hv] at hraw
  | element hi => simp [Value.items_of_scalar hv] at hi
  | missing hi => simp [Value.items_of_scalar hv] at hi
  | ref _ _ _ ih => exact ih hv

/-- What becomes of the references in a schema checked with a bound. -/
def followWithin (env : Env) (config : Config) : Nat → Ref → Check
  | 0 => tooDeep config
  | remaining + 1 => fun r visit v => do
    let target ← env.resolve r
    match visit.enter? r v with
    | none => pure (.pass v)
    | some visit => env.checkWithin config remaining target visit v

theorem checkWithin_eq (n : Nat) (s : Schema) :
    env.checkWithin config n s = s.checkWith env config (env.followWithin config n) := by
  cases n <;> rfl

theorem checkWithin_union (n : Nat) (bs : List Schema) : env.checkWithin config n (.union bs) =
    .union env.domains? (bs.map fun s => (s, env.checkWithin config n s)) := by
  simp only [checkWithin_eq, Schema.checkWith, Schema.branchChecks_eq]

theorem checkWithin_intersection (n : Nat) (ms : List Schema) : env.checkWithin config n (.intersection ms) =
    .conjunction (ms.map fun s => env.checkWithin config n s) := by
  simp only [checkWithin_eq, Schema.checkWith, Schema.memberChecks_eq]

theorem checkWithin_object (n : Nat) (o : ObjectShape Schema) : env.checkWithin config n (.object o) =
    .object config env.hooks (Check.ofShape (fun s => env.checkWithin config n s) o) := by
  obtain ⟨ps, i, u⟩ := o
  simp only [checkWithin_eq, Schema.checkWith, Schema.propertyChecks_eq, Check.ofShape]
  cases i <;> rfl

theorem checkWithin_tuple (n : Nat) (es : List (Element Schema)) : env.checkWithin config n (.tuple es) =
    .tuple config env.hooks es (Check.ofElements (fun s => env.checkWithin config n s) es) := by
  simp only [checkWithin_eq, Schema.checkWith, Schema.elementChecks_eq, Check.ofElements]

variable {depth : Nat}

/-- A higher bound keeps what a union accepts when it does so for the branches. -/
theorem firstAccepting_keeps {bs : List Schema} (h : ∀ s ∈ bs, ∀ looked visit v,
      ¬ env.Misled config { config with maxDepth := depth } n n' looked s visit v →
      (env.checkWithin config n s).Keeps looked (env.checkWithin { config with maxDepth := depth } n' s) visit v)
    (hm : ¬ env.Misled config { config with maxDepth := depth } n n' looked (.union bs) visit v) {o : Outcome}
    (ho : Check.firstAccepting visit v (bs.map fun s => (s, env.checkWithin config n s)) = .ok (.inl o)) :
    Check.Finds looked o (Check.firstAccepting visit v
      (bs.map fun s => (s, env.checkWithin { config with maxDepth := depth } n' s))) := by
  induction bs with
  | nil => exact absurd (Except.ok.inj ho) (by simp)
  | cons s bs ih =>
    rw [List.forall_mem_cons] at h
    rcases Check.firstAccepting_cons_inl ho with ⟨hs, hok⟩ | ⟨p, hp, hno, hrest⟩
    · refine Check.finds_first (h.1 _ _ _ (fun hmis => hm ?_) o hs hok)
      exact .branch hs (Outcome.isOk_iff.mpr hok) hmis
    · refine Check.finds_later (fun q hq hqok hl => ?_) (ih h.2 (fun hmis => hm ?_) hrest)
      · by_contra hne
        subst hl
        refine hm (.passedOver hp hno (o := o) ?_ ?_ hq (Outcome.isOk_iff.mpr hqok) hne)
        · rw [checkWithin_union, Check.union, hrest]
          rfl
        · obtain ⟨r, hr, hrok⟩ := Check.firstAccepting_cases hrest |>.resolve_right (by simp)
          obtain rfl := Sum.inl.inj hr
          exact hrok.1
      · exact .laterBranch hp hno hmis

theorem conjunction_keeps {ms : List Schema} (h : ∀ s ∈ ms, ∀ looked visit v,
      ¬ env.Misled config { config with maxDepth := depth } n n' looked s visit v →
      (env.checkWithin config n s).Keeps looked (env.checkWithin { config with maxDepth := depth } n' s) visit v)
    (hm : ¬ env.Misled config { config with maxDepth := depth } n n' looked (.intersection ms) visit v) :
    (Check.conjunction (ms.map fun s => env.checkWithin config n s)).Keeps looked (Check.conjunction
      (ms.map fun s => env.checkWithin { config with maxDepth := depth } n' s)) visit v := by
  induction ms generalizing visit v with
  | nil => exact fun o ho hok => ho ▸ Kept.self hok
  | cons s ms ih =>
    rw [List.forall_mem_cons] at h
    refine Check.conjunction_keeps (by simp) (h.1 _ _ _ fun hmis => hm (.member ?_)) fun p hp hok => ?_
    · simpa using hmis
    · exact ih h.2 fun hmis => hm (.laterMember hp (Outcome.isOk_iff.mpr hok) hmis)

/-- A higher bound keeps what a schema accepts when it does so for the references in it. -/
theorem checkWithin_keeps_of_refs (href : ∀ r looked visit v,
      ¬ env.Misled config { config with maxDepth := depth } n n' looked (.ref r) visit v →
      (env.checkWithin config n (.ref r)).Keeps looked (env.checkWithin { config with maxDepth := depth } n' (.ref r))
        visit v) (s : Schema) (looked : Bool) (visit : Visit) (v : Value)
    (hm : ¬ env.Misled config { config with maxDepth := depth } n n' looked s visit v) :
    (env.checkWithin config n s).Keeps looked (env.checkWithin { config with maxDepth := depth } n' s) visit v := by
  induction s using Schema.induction_on_parts generalizing looked visit v with
  | _ s ih =>
    cases s with
    | keyword k =>
      rw [checkWithin_eq, checkWithin_eq]
      exact fun o ho hok => ho ▸ Kept.self hok
    | literal w =>
      rw [checkWithin_eq, checkWithin_eq]
      exact fun o ho hok => ho ▸ Kept.self hok
    | constrained s cs =>
      have hbase := ih s (by simp [Schema.parts]) true visit v fun hmis => hm (.base hmis)
      rw [checkWithin_eq, checkWithin_eq] at hbase ⊢
      exact Check.constrained_keeps hbase cs
    | union bs =>
      rw [checkWithin_union, checkWithin_union]
      exact fun o ho hok => Check.union_keeps (firstAccepting_keeps ih hm) ho hok
    | intersection ms =>
      rw [checkWithin_intersection, checkWithin_intersection]
      exact conjunction_keeps ih hm
    | ref r => exact href r looked visit v hm
    | object o =>
      rw [checkWithin_object, checkWithin_object]
      refine Check.object_keeps (fun raw hraw p hp w hw => ih _ ?_ _ _ _ fun hmis => hm (.property hraw hp hw hmis))
        fun raw hraw e he hdecl i hi => ?_
      · exact List.mem_append_left _ (List.mem_map_of_mem hp)
      · have hparts : i.key ∈ (Schema.object o).parts ∧ i.value ∈ (Schema.object o).parts := by
          simp [Schema.parts, hi, IndexSignature.parts]
        refine ⟨ih _ hparts.1 _ _ _ (not_misled_scalar (Key.isScalar_toValue e.key)), fun p hp hok => ?_, ?_⟩
        · exact ih _ hparts.2 _ _ _ fun hmis => hm (.indexed hraw he hdecl hi hp (Outcome.isOk_iff.mpr hok) hmis)
        · intro p q r hp hno hq hok hr
          by_contra hbad
          refine hm (.key hraw he hdecl hi hp hno hq (Outcome.isOk_iff.mpr hok) hr ?_)
          cases hrok : r.isOk with
          | false => exact Or.inl rfl
          | true =>
            rw [not_and, Classical.not_imp] at hbad
            obtain ⟨hl, hdiffers⟩ := hbad (Outcome.isOk_iff.mp hrok)
            exact Or.inr ⟨hl, fun hignore hout => hdiffers ⟨hignore, hout⟩⟩
    | tuple es =>
      rw [checkWithin_tuple, checkWithin_tuple]
      refine Check.tuple_keeps (fun q items hi t ht => ih _ ?_ _ _ _ fun hmis => hm (.element hi ht hmis))
        fun q items hi e he d w hrole hd hw => ih _ ?_ _ _ _ fun hmis => hm (.missing hi he hrole hd hw hmis)
      · obtain ⟨⟨e, he, heq⟩, -⟩ := Element.mem_places ht
        exact heq ▸ List.mem_map_of_mem he
      · exact List.mem_map_of_mem (List.mem_filter.mp (List.mem_of_mem_drop he)).1

theorem checkWithin_keeps (hn : n ≤ n') (s : Schema) (looked : Bool) (visit : Visit) (v : Value)
    (hm : ¬ env.Misled config { config with maxDepth := depth } n n' looked s visit v) :
    (env.checkWithin config n s).Keeps looked (env.checkWithin { config with maxDepth := depth } n' s) visit v := by
  induction n generalizing n' s looked visit v with
  | zero =>
    refine checkWithin_keeps_of_refs (fun r looked visit v _ o ho hok => ?_) s looked visit v hm
    obtain rfl := Except.ok.inj ho
    simp [Outcome.fail] at hok
  | succ n ih =>
    obtain ⟨n', rfl⟩ := Nat.exists_eq_add_of_le' (Nat.le_trans (Nat.succ_pos n) hn)
    refine checkWithin_keeps_of_refs (fun r looked visit v hm o ho hok => ?_) s looked visit v hm
    obtain ⟨t, ht, ho⟩ := bind_ok ho
    show Kept _ looked o (env.resolve r >>= _)
    rw [ht]
    dsimp only [bind, Except.bind]
    cases hin : visit.enter? r v with
    | none =>
      rw [hin] at ho
      exact ho ▸ Kept.self hok
    | some inner =>
      rw [hin] at ho
      exact ih (by omega) t looked inner v (fun hmis => hm (.ref ht hin hmis)) o ho hok

/-- Under a higher bound an accepted value is accepted, unless the check stops with an error or the lower bound misled
a trial. -/
theorem accepts_deeper {depth : Nat} (hdepth : config.maxDepth ≤ depth) (h : env.accepts config s v = .ok true) :
    env.accepts { config with maxDepth := depth } s v = .ok true ∨
      (∃ e, env.accepts { config with maxDepth := depth } s v = .error e) ∨
      env.Misled config { config with maxDepth := depth } config.maxDepth depth false s .root v := by
  by_cases hm : env.Misled config { config with maxDepth := depth } config.maxDepth depth false s .root v
  · exact Or.inr (Or.inr hm)
  obtain ⟨o, ho, hok⟩ := map_ok h
  have hkept := checkWithin_keeps hdepth s false .root v hm o ho (Outcome.isOk_iff.mp hok)
  unfold accepts run check
  cases hrun : env.checkWithin { config with maxDepth := depth } depth s .root v with
  | error e => exact Or.inr (Or.inl ⟨e, rfl⟩)
  | ok p =>
    rw [hrun] at hkept
    exact Or.inl (congrArg Except.ok (Outcome.isOk_iff.mpr hkept.1))

/-- A list that leads on to a list of the same kind, by name. -/
def links : Env :=
  ⟨bare.hooks, [⟨1, [some (.object ⟨[⟨.name "next", .ref ⟨1, 0, "link"⟩, .optional⟩], none, .reject⟩)],
    [("link", 0)]⟩], .ok Config.default⟩

theorem accepts_deeper_links :
    let config : Config := { Config.default with maxDepth := 2 }
    let v : Value := .mapping [(.string "next", .mapping [])]
    config.maxDepth ≤ 3 ∧ links.accepts config (.ref ⟨1, 0, "link"⟩) v = .ok true ∧
      (links.accepts { config with maxDepth := 3 } (.ref ⟨1, 0, "link"⟩) v = .ok true ∨
        (∃ e, links.accepts { config with maxDepth := 3 } (.ref ⟨1, 0, "link"⟩) v = .error e) ∨
        links.Misled config { config with maxDepth := 3 } config.maxDepth 3 false (.ref ⟨1, 0, "link"⟩) .root v) := by
  intro config v
  have hdepth : config.maxDepth ≤ 3 := by decide
  have hacc : links.accepts config (.ref ⟨1, 0, "link"⟩) v = .ok true := rfl
  exact ⟨hdepth, hacc, accepts_deeper hdepth hacc⟩

/-- The name of a name of an object that deletes what it does not declare. -/
def sheds : Env :=
  ⟨bare.hooks, [⟨1, [some (.object ⟨[], none, .delete⟩), some (.ref ⟨1, 0, "empty"⟩)], [("empty", 0), ("bare", 1)]⟩],
    .ok Config.default⟩

/-- A union that strips the value where it may follow two names, and an object that needs what is stripped. -/
def strippedOrWhole : Schema :=
  .intersection [.union [.ref ⟨1, 1, "bare"⟩, .unknown],
    .object ⟨[⟨.name "x", .keyword .number, .required⟩], none, .ignore⟩]

/-- Where only one name may be followed the union takes its second branch, which leaves the value as it is. -/
theorem refused_deeper :
    sheds.accepts { Config.default with maxDepth := 1 } strippedOrWhole (.mapping [(.string "x", .int 1)]) =
        .ok true ∧
      sheds.accepts { Config.default with maxDepth := 2 } strippedOrWhole (.mapping [(.string "x", .int 1)]) =
        .ok false := ⟨rfl, rfl⟩

end Env
end Schemata
