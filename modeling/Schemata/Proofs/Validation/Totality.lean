import Schemata.Proofs.Constraint.Soundness
import Schemata.Proofs.Validation.Domains
import Schemata.Proofs.Validation.Faults

/-! Validation answers. Whatever the value is, what is wrong with it is a failure in the report. Only a default stops a
check: a factory that fails, or a constant that cannot be copied. -/
namespace Schemata

variable {hooks : Hooks} {p : Producer} {copy : Nat}

/-- A factory that fails is reported as such; a constant has to be copied. -/
theorem Producer.produce_ends : Ends (p.produce hooks copy) (fun _ => True) fun e =>
    (∃ x, e = .schema (.producer x)) ∨ e = .uncopyable ∧ p.isFactory = false ∧ p.source.isCopyable = false := by
  unfold produce
  split
  · split
    · rename_i c _
      cases hooks.make c with
      | error x => exact Or.inl ⟨x, rfl⟩
      | ok w => trivial
    · exact Or.inl ⟨_, rfl⟩
  · rename_i hfactory
    split_ifs with hcopy
    · trivial
    · exact Or.inr ⟨rfl, by simpa using hfactory, by simpa using hcopy⟩

namespace Schema

/-- The constraints of the node are sound. -/
def Sound : Schema → Prop
  | .constrained _ cs => ∀ c ∈ cs, c.Sound
  | _ => True

/-- The defaults of the node can always be made. -/
def Supplied (hooks : Hooks) (s : Schema) : Prop := ∀ p ∈ s.defaults, ∀ copy, ∃ w, p.produce hooks copy = .ok w

/-- The constants among the defaults of the node can be copied. -/
def Copyable (s : Schema) : Prop := ∀ p ∈ s.defaults, p.isFactory = false → p.source.isCopyable = true

end Schema

namespace Env

variable {env : Env} {config : Config} {known : Ref → Prop} {p q : Schema → Prop} {Q : Fault → Prop} {s t : Schema}
  {v : Value}

/-- Every node of the schema and of the known definitions satisfies `p`. -/
structure Throughout (env : Env) (known : Ref → Prop) (p : Schema → Prop) (s : Schema) : Prop where
  here : s.Every p
  behind : ∀ r t, known r → env.target r = .filled t → t.Every p

theorem Throughout.mono (hpq : ∀ s, p s → q s) (h : env.Throughout known p s) : env.Throughout known q s :=
  ⟨h.here.mono hpq, fun r t hr ht => (h.behind r t hr ht).mono hpq⟩

/-- A check stops with what a default stops with. -/
theorem checkWithin_ends (hcomplete : env.Complete known) (n : Nat) (hs : s.Into known)
    (hsound : env.Throughout known Schema.Sound s)
    (hdefaults : env.Throughout known (Schema.DefaultsEnd env.hooks Q) s) :
    (env.checkWithin config n s).Stops Q := by
  refine checkWithin_stops (fun follow t ⟨hinto, hsound, hdefaults⟩ hfollow => ?_) (fun r ⟨hinto, _⟩ => ?_) n
    (hs.nested.and (hsound.here.and hdefaults.here))
  · cases t with
    | ref r => exact hfollow r rfl
    | constrained t cs =>
      intro c hc v
      obtain ⟨d, hd⟩ := (hsound c hc).check env.hooks v
      rw [hd]
      trivial
    | union bs =>
      intro b hb
      obtain ⟨ds, hds⟩ := domains?_answers hcomplete (Schema.into_union.mp hinto b hb)
      rw [hds]
      trivial
    | _ => exact hdefaults
  · have hr := Schema.into_ref.mp hinto
    obtain ⟨t, ht, hinto⟩ := hcomplete.resolve hr
    have htarget := target_of_resolve ht
    rw [ht]
    exact hinto.nested.and ((hsound.behind r t hr htarget).and (hdefaults.behind r t hr htarget))

theorem validate_ends (hcomplete : env.Complete known) (hs : s.Into known) (hsound : env.Throughout known Schema.Sound s)
    (hdefaults : env.Throughout known (Schema.DefaultsEnd env.hooks Q) s) :
    Ends (env.validate config s v) (fun _ => True) Q :=
  (checkWithin_ends hcomplete config.maxDepth hs hsound hdefaults .root v).map fun _ _ => trivial

/-- Where all constraints are sound, validation answers if the defaults can be made. Otherwise it may stop with the
error of a factory, or of a constant that cannot be copied. -/
theorem validate_answers (hcomplete : env.Complete known) (hs : s.Into known)
    (hsound : env.Throughout known Schema.Sound s) :
    (env.Throughout known (Schema.Supplied env.hooks) s → ∃ a, env.validate config s v = .ok a) ∧
      ∀ e, env.validate config s v = .error e →
        (∃ x, e = .schema (.producer x)) ∨ e = .uncopyable ∧ ¬ env.Throughout known Schema.Copyable s := by
  constructor
  · intro hsupplied
    have hends : Ends (env.validate config s v) (fun _ => True) fun _ => False :=
      validate_ends hcomplete hs hsound (hsupplied.mono fun t ht p hp copy => by
        obtain ⟨w, hw⟩ := ht p hp copy
        rw [hw]
        trivial)
    exact hends.succeeds.imp fun _ => And.left
  · intro e he
    by_cases hcopyable : env.Throughout known Schema.Copyable s
    · have hends : Ends (env.validate config s v) (fun _ => True) fun e => ∃ x, e = .schema (.producer x) :=
        validate_ends hcomplete hs hsound (hcopyable.mono fun t ht p hp copy =>
          Producer.produce_ends.mono (fun _ h => h) fun e he => he.resolve_right fun ⟨_, hfactory, hno⟩ => by
            simp [ht p hp hfactory] at hno)
      rw [he] at hends
      exact Or.inl hends
    · have hends : Ends (env.validate config s v) (fun _ => True) fun e =>
          (∃ x, e = .schema (.producer x)) ∨ e = .uncopyable :=
        validate_ends hcomplete hs hsound ⟨.all fun t p _ copy => ?_, fun r t _ _ => .all fun t p _ copy => ?_⟩
      · rw [he] at hends
        exact hends.imp_right fun h => ⟨h, hcopyable⟩
      all_goals exact Producer.produce_ends.mono (fun _ h => h) fun e he => he.imp_right And.left

/-- Labels that start a text, in a world where every function fails. -/
def labels : Env :=
  ⟨⟨fun _ _ => .raised ⟨"ValueError", "no"⟩, fun _ => .error ⟨"ValueError", "no"⟩⟩,
    [⟨1, [some (.constrained (.keyword .string) [.pattern ⟨"^a", 0, none⟩])], [("label", 0)]⟩], .ok Config.default⟩

/-- A label, and a count that passes a test, with what `make` answers where none is given. -/
def stock : Schema :=
  .object ⟨[⟨.name "label", .ref ⟨1, 0, "label"⟩, .required⟩,
    ⟨.name "count",
      .constrained (.keyword .number) [.range ⟨some (.int 0), none, false, false⟩, .predicate ⟨"even", "even"⟩],
      .defaultable ⟨⟨0, 0⟩, .callable ⟨"make", false, true⟩, true⟩⟩], none, .ignore⟩

theorem validate_answers_stock :
    let known : Ref → Prop := fun r => r.arena = 1 ∧ r.handle = 0
    let v : Value := .mapping [(.string "label", .string "tea")]
    labels.Complete known ∧ stock.Into known ∧ labels.Throughout known Schema.Sound stock ∧
      (labels.Throughout known (Schema.Supplied labels.hooks) stock →
        ∃ a, labels.validate Config.default stock v = .ok a) ∧
      ∀ e, labels.validate Config.default stock v = .error e →
        (∃ x, e = .schema (.producer x)) ∨ e = .uncopyable ∧ ¬ labels.Throughout known Schema.Copyable stock := by
  intro known v
  have htarget : ∀ r, known r →
      labels.target r = .filled (.constrained (.keyword .string) [.pattern ⟨"^a", 0, none⟩]) := by
    rintro ⟨_, _, name⟩ ⟨rfl, rfl⟩
    rfl
  have hcomplete : labels.Complete known := fun r hr => ⟨_, htarget r hr, by simp⟩
  have hinto : stock.Into known := by
    refine Schema.into_object.mpr ⟨?_, by simp⟩
    simp [known]
  have leaf : ∀ {k : Keyword}, (Schema.keyword k).Every Schema.Sound := .intro trivial (by simp [Schema.parts])
  have hsound : labels.Throughout known Schema.Sound stock := by
    refine ⟨.intro trivial ?_, fun r t hr ht => ?_⟩
    · simp only [stock, Schema.parts, IndexSignature.parts, List.map_cons, List.map_nil, List.append_nil,
        List.forall_mem_cons, List.not_mem_nil, false_imp_iff, implies_true, and_true]
      refine ⟨.intro trivial (by simp [Schema.parts]), .intro ?_ (List.forall_mem_singleton.mpr leaf)⟩
      exact List.forall_mem_cons.mpr ⟨⟨by simp [Value.asNumber?], by simp⟩, List.forall_mem_singleton.mpr trivial⟩
    · obtain rfl := Target.filled.inj ((htarget r hr).symm.trans ht)
      exact .intro (List.forall_mem_singleton.mpr ⟨_, rfl⟩) (List.forall_mem_singleton.mpr leaf)
  exact ⟨hcomplete, hinto, hsound, validate_answers hcomplete hinto hsound⟩

/-- What cannot be copied stops the check where it is needed as a default. -/
example : bare.validate Config.default
    (.object ⟨[⟨.name "a", .unknown, .defaultable ⟨⟨0, 0⟩, .record .object none [], false⟩⟩], none, .ignore⟩)
    (.mapping []) = .error .uncopyable := rfl

end Env
end Schemata
