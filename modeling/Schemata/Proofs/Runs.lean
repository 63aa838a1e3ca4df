import Mathlib.Data.List.Forall2

/-! Runs that may fail. A test decides a proposition when it answers, and answers yes exactly when the
proposition holds. Other runs have a condition on their results and one on their errors. -/
namespace Schemata

variable {ε α β : Type}

/-- The run answers, and says yes exactly when `P` holds. -/
def Decides (x : Except ε Bool) (P : Prop) : Prop := ∃ b, x = .ok b ∧ (b = true ↔ P)

namespace Decides

theorem ok (b : Bool) : Decides (.ok b : Except ε Bool) (b = true) := ⟨b, rfl, Iff.rfl⟩

theorem congr {x : Except ε Bool} {P Q : Prop} (h : Decides x P) (hPQ : P ↔ Q) : Decides x Q := by
  obtain ⟨b, hb, hP⟩ := h
  exact ⟨b, hb, hP.trans hPQ⟩

theorem of_true {P : Prop} (h : P) : Decides (.ok true : Except ε Bool) P := ⟨true, rfl, by simp [h]⟩

theorem of_false {P : Prop} (h : ¬ P) : Decides (.ok false : Except ε Bool) P := ⟨false, rfl, by simp [h]⟩

theorem iff {x : Except ε Bool} {P : Prop} (h : Decides x P) : x = .ok true ↔ P := by
  obtain ⟨b, rfl, hP⟩ := h
  simp [hP]

/-- A test that decides anything decides what it says. -/
theorem answers {x : Except ε Bool} {P : Prop} (h : Decides x P) : Decides x (x = .ok true) := h.congr h.iff.symm

theorem eq_true {x : Except ε Bool} {P : Prop} (h : Decides x P) (hP : P) : x = .ok true := h.iff.mpr hP

theorem eq_false {x : Except ε Bool} {P : Prop} (h : Decides x P) (hP : ¬ P) : x = .ok false := by
  obtain ⟨b, rfl, hb⟩ := h
  cases b
  · rfl
  · exact absurd (hb.mp rfl) hP

/-- A test goes on with `y` after a yes and stops with a no otherwise. -/
theorem and {x y : Except ε Bool} {P Q : Prop} (hx : Decides x P) (hy : P → Decides y Q) :
    Decides (do if ← x then y else pure false) (P ∧ Q) := by
  by_cases hP : P
  · rw [hx.eq_true hP]
    exact (hy hP).congr (by simp [hP])
  · rw [hx.eq_false hP]
    exact of_false (fun h => hP h.1)

/-- A test stops with a no after a no and goes on with `y` otherwise. -/
theorem guard {x y : Except ε Bool} {P Q : Prop} (hx : Decides x P) (hy : P → Decides y Q) :
    Decides (do if !(← x) then pure false else y) (P ∧ Q) := by
  by_cases hP : P
  · rw [hx.eq_true hP]
    exact (hy hP).congr (by simp [hP])
  · rw [hx.eq_false hP]
    exact of_false (fun h => hP h.1)

/-- A test stops with a yes after a yes and goes on with `y` otherwise. -/
theorem or {x y : Except ε Bool} {P Q : Prop} (hx : Decides x P) (hy : ¬ P → Decides y Q) :
    Decides (do if ← x then pure true else y) (P ∨ Q) := by
  by_cases hP : P
  · rw [hx.eq_true hP]
    exact of_true (Or.inl hP)
  · rw [hx.eq_false hP]
    exact (hy hP).congr (by simp [hP])

theorem any {p : α → Except ε Bool} {P : α → Prop} {l : List α} (h : ∀ a ∈ l, Decides (p a) (P a)) :
    Decides (l.anyM p) (∃ a ∈ l, P a) := by
  induction l with
  | nil => exact of_false (by simp)
  | cons a l ih =>
    have ha := h a List.mem_cons_self
    rw [List.anyM_cons]
    by_cases hP : P a
    · rw [ha.eq_true hP]
      exact of_true ⟨a, List.mem_cons_self, hP⟩
    · rw [ha.eq_false hP]
      exact (ih fun b hb => h b (List.mem_cons_of_mem _ hb)).congr (by simp [hP])

theorem all {p : α → Except ε Bool} {P : α → Prop} {l : List α} (h : ∀ a ∈ l, Decides (p a) (P a)) :
    Decides (l.allM p) (∀ a ∈ l, P a) := by
  induction l with
  | nil => exact of_true (by simp)
  | cons a l ih =>
    have ha := h a List.mem_cons_self
    rw [List.allM_cons]
    by_cases hP : P a
    · rw [ha.eq_true hP]
      exact (ih fun b hb => h b (List.mem_cons_of_mem _ hb)).congr (by simp [hP])
    · rw [ha.eq_false hP]
      exact of_false (by simp [hP])

end Decides

theorem bind_ok {x : Except ε α} {f : α → Except ε β} {b : β} (h : (x >>= f) = .ok b) :
    ∃ a, x = .ok a ∧ f a = .ok b := by
  cases x with
  | error e => exact absurd h (by simp [bind, Except.bind])
  | ok a => exact ⟨a, rfl, h⟩

theorem combine_ok {γ : Type} {x : Except ε α} {y : Except ε β} {f : α → β → γ} {c : γ}
    (h : (do let a ← x; let b ← y; pure (f a b)) = .ok c) : ∃ a b, x = .ok a ∧ y = .ok b ∧ c = f a b := by
  obtain ⟨a, ha, h⟩ := bind_ok h
  obtain ⟨b, hb, h⟩ := bind_ok h
  exact ⟨a, b, ha, hb, (Except.ok.inj h).symm⟩

/-- The run ends with a result that satisfies `P`. -/
def Succeeds (x : Except ε α) (P : α → Prop) : Prop := ∃ a, x = .ok a ∧ P a

namespace Succeeds

variable {P P' : α → Prop}

@[simp] theorem ok {a : α} : Succeeds (.ok a : Except ε α) P ↔ P a := by simp [Succeeds]

@[simp] theorem error {e : ε} : ¬ Succeeds (.error e) P := by simp [Succeeds]

@[simp] theorem pure {a : α} : Succeeds (Pure.pure a : Except ε α) P ↔ P a := ok

/-- Both steps succeed, the second on the result of the first. -/
theorem bind {x : Except ε α} {f : α → Except ε β} {Q : β → Prop} :
    Succeeds (x >>= f) Q ↔ Succeeds x fun a => Succeeds (f a) Q := by
  cases x with
  | error e => exact iff_of_false error error
  | ok a =>
    show Succeeds (f a) Q ↔ _
    rw [ok]

/-- Two steps that do not look at each other's results. -/
theorem both {ε' : Type} {x : Except ε α} {y : Except ε' β} {Q : β → Prop} :
    Succeeds x (fun a => Succeeds y fun b => P a ∧ Q b) ↔ Succeeds x P ∧ Succeeds y Q := by
  constructor
  · rintro ⟨a, ha, b, hb, hP, hQ⟩
    exact ⟨⟨a, ha, hP⟩, b, hb, hQ⟩
  · rintro ⟨⟨a, ha, hP⟩, b, hb, hQ⟩
    exact ⟨a, ha, b, hb, hP, hQ⟩

theorem map {x : Except ε α} {f : α → β} {Q : β → Prop} :
    Succeeds (x.map f) Q ↔ Succeeds x fun a => Q (f a) := by
  cases x <;> simp [Except.map]

theorem mapError {ε' : Type} {x : Except ε α} {f : ε → ε'} : Succeeds (x.mapError f) P ↔ Succeeds x P := by
  cases x <;> simp [Except.mapError]

theorem mapM {Q : β → Prop} {f : α → Except ε β} {as : List α} (h : ∀ a ∈ as, Succeeds (f a) Q) :
    Succeeds (as.mapM f) fun bs => ∀ b ∈ bs, Q b := by
  induction as with
  | nil => exact ⟨[], rfl, nofun⟩
  | cons a as ih =>
    obtain ⟨ha, has⟩ := List.forall_mem_cons.mp h
    rw [List.mapM_cons, bind]
    obtain ⟨b, hb, hQ⟩ := ha
    exact ⟨b, hb, bind.mpr ((ih has).imp fun bs hbs => ⟨hbs.1, pure.mpr (List.forall_mem_cons.mpr ⟨hQ, hbs.2⟩)⟩)⟩

end Succeeds

theorem anyM_ok_true {p : α → Except ε Bool} {l : List α} (h : l.anyM p = .ok true) :
    ∃ a ∈ l, p a = .ok true := by
  induction l with
  | nil => simp [pure, Except.pure] at h
  | cons a l ih =>
    rw [List.anyM_cons] at h
    obtain ⟨b, hb, h⟩ := bind_ok h
    cases b with
    | true => exact ⟨a, List.mem_cons_self, hb⟩
    | false =>
      obtain ⟨c, hc, h⟩ := ih h
      exact ⟨c, List.mem_cons_of_mem _ hc, h⟩

theorem allM_ok_true {p : α → Except ε Bool} {l : List α} (h : l.allM p = .ok true) :
    ∀ a ∈ l, p a = .ok true := by
  induction l with
  | nil => simp
  | cons a l ih =>
    rw [List.allM_cons] at h
    obtain ⟨b, hb, h⟩ := bind_ok h
    cases b with
    | true =>
      intro c hc
      rcases List.mem_cons.mp hc with rfl | hc
      · exact hb
      · exact ih h c hc
    | false => simp [pure, Except.pure] at h

theorem anyM_ok_false {p : α → Except ε Bool} {l : List α} (h : l.anyM p = .ok false) :
    ∀ a ∈ l, p a = .ok false := by
  induction l with
  | nil => simp
  | cons a l ih =>
    rw [List.anyM_cons] at h
    obtain ⟨b, hb, h⟩ := bind_ok h
    cases b with
    | true => simp [pure, Except.pure] at h
    | false => exact List.forall_mem_cons.mpr ⟨hb, ih h⟩

theorem allM_ok_false {p : α → Except ε Bool} {l : List α} (h : l.allM p = .ok false) :
    ∃ a ∈ l, p a = .ok false := by
  induction l with
  | nil => simp [pure, Except.pure] at h
  | cons a l ih =>
    rw [List.allM_cons] at h
    obtain ⟨b, hb, h⟩ := bind_ok h
    cases b with
    | true =>
      obtain ⟨c, hc, h⟩ := ih h
      exact ⟨c, List.mem_cons_of_mem _ hc, h⟩
    | false => exact ⟨a, List.mem_cons_self, hb⟩

/-- The run ends with a result that satisfies `P` or with an error that satisfies `Q`. -/
def Ends (x : Except ε α) (P : α → Prop) (Q : ε → Prop) : Prop :=
  match x with
  | .ok a => P a
  | .error e => Q e

namespace Ends

variable {P : α → Prop} {Q : ε → Prop}

theorem mono {x : Except ε α} {P' : α → Prop} {Q' : ε → Prop} (h : Ends x P Q) (hP : ∀ a, P a → P' a)
    (hQ : ∀ e, Q e → Q' e) : Ends x P' Q' := by
  cases x with
  | ok a => exact hP a h
  | error e => exact hQ e h

theorem bind {x : Except ε α} {f : α → Except ε β} {R : β → Prop} (hx : Ends x P Q)
    (hf : ∀ a, P a → Ends (f a) R Q) : Ends (x >>= f) R Q := by
  cases x with
  | ok a => exact hf a hx
  | error e => exact hx

theorem map {x : Except ε α} {f : α → β} {R : β → Prop} (hx : Ends x P Q) (hf : ∀ a, P a → R (f a)) :
    Ends (x.map f) R Q := by
  cases x with
  | ok a => exact hf a hx
  | error e => exact hx

theorem anyM {p : α → Except ε Bool} {l : List α} (h : ∀ a ∈ l, Ends (p a) (fun _ => True) Q) :
    Ends (l.anyM p) (fun _ => True) Q := by
  induction l with
  | nil => trivial
  | cons a l ih =>
    rw [List.forall_mem_cons] at h
    rw [List.anyM_cons]
    refine h.1.bind fun b _ => ?_
    cases b with
    | true => trivial
    | false => exact ih h.2

theorem allM {p : α → Except ε Bool} {l : List α} (h : ∀ a ∈ l, Ends (p a) (fun _ => True) Q) :
    Ends (l.allM p) (fun _ => True) Q := by
  induction l with
  | nil => trivial
  | cons a l ih =>
    rw [List.forall_mem_cons] at h
    rw [List.allM_cons]
    refine h.1.bind fun b _ => ?_
    cases b with
    | true => exact ih h.2
    | false => trivial

/-- A run that no error can end succeeds. -/
theorem succeeds {x : Except ε α} (h : Ends x P fun _ => False) : Succeeds x P := by
  cases x with
  | ok a => exact ⟨a, rfl, h⟩
  | error e => exact h.elim

theorem of_succeeds {x : Except ε α} (h : Succeeds x P) : Ends x P Q := by
  obtain ⟨a, rfl, ha⟩ := h
  exact ha

/-- The result of a run is what the run ends with. -/
theorem self {x : Except ε α} (h : Ends x P Q) : Ends x (fun a => x = .ok a) Q := by
  cases x with
  | ok a => rfl
  | error e => exact h

/-- An invariant of the steps holds at the end of a fold. -/
theorem foldlM {f : β → α → Except ε β} {I : List α → β → Prop} {l : List α} {b : β} (hb : I [] b)
    (hf : ∀ seen a rest c, l = seen ++ a :: rest → I seen c → Ends (f c a) (I (seen ++ [a])) Q) :
    Ends (l.foldlM f b) (I l) Q := by
  have run : ∀ rest seen c, l = seen ++ rest → I seen c → Ends (rest.foldlM f c) (I l) Q := by
    intro rest
    induction rest with
    | nil =>
      intro seen c hl hc
      rw [List.append_nil] at hl
      exact hl ▸ hc
    | cons a rest ih =>
      intro seen c hl hc
      rw [List.foldlM_cons]
      exact (hf seen a rest c hl hc).bind fun c hc => ih (seen ++ [a]) c (by simpa using hl) hc
  exact run l [] b rfl hb

end Ends

/-- Two runs end alike: with results that `R` relates, or with errors that `E` relates. -/
def Agree {ε' : Type} (E : ε → ε' → Prop) (R : α → β → Prop) (x : Except ε α) (y : Except ε' β) : Prop :=
  match x, y with
  | .ok a, .ok b => R a b
  | .error e, .error f => E e f
  | _, _ => False

namespace Agree

variable {ε' : Type} {E : ε → ε' → Prop} {R : α → β → Prop} {x : Except ε α} {y : Except ε' β}

theorem mono {R' : α → β → Prop} (h : Agree E R x y) (hR : ∀ a b, R a b → R' a b) : Agree E R' x y := by
  cases x <;> cases y <;> first | exact hR _ _ h | exact h

theorem monoError {E' : ε → ε' → Prop} (h : Agree E R x y) (hE : ∀ e f, E e f → E' e f) : Agree E' R x y := by
  cases x <;> cases y <;> first | exact hE _ _ h | exact h

theorem bind {γ δ : Type} {f : α → Except ε γ} {g : β → Except ε' δ} {S : γ → δ → Prop} (h : Agree E R x y)
    (hf : ∀ a b, R a b → Agree E S (f a) (g b)) : Agree E S (x >>= f) (y >>= g) := by
  cases x <;> cases y
  · exact h
  · exact False.elim h
  · exact False.elim h
  · exact hf _ _ h

theorem map {γ δ : Type} {f : α → γ} {g : β → δ} {S : γ → δ → Prop} (h : Agree E R x y)
    (hf : ∀ a b, R a b → S (f a) (g b)) : Agree E S (x.map f) (y.map g) := by
  cases x <;> cases y <;> first | exact hf _ _ h | exact h

theorem mapLeft {γ : Type} {S : γ → β → Prop} {f : α → γ} (h : Agree E R x y) (hf : ∀ a b, R a b → S (f a) b) :
    Agree E S (x.map f) y := by
  cases x <;> cases y <;> first | exact hf _ _ h | exact h

theorem mapError {κ κ' : Type} {f : ε → κ} {g : ε' → κ'} {F : κ → κ' → Prop} (h : Agree E R x y)
    (hf : ∀ d e, E d e → F (f d) (g e)) : Agree F R (x.mapError f) (y.mapError g) := by
  cases x <;> cases y <;> first | exact hf _ _ h | exact h

theorem refl {E : ε → ε → Prop} {R : α → α → Prop} {x : Except ε α} (hE : ∀ e, x = .error e → E e e)
    (hR : ∀ a, R a a) : Agree E R x x := by
  cases x with
  | error e => exact hE e rfl
  | ok a => exact hR a

/-- A search through related lists stops at the same place. -/
theorem anyM {p : α → Except ε Bool} {q : β → Except ε' Bool} {as : List α} {bs : List β}
    (h : List.Forall₂ (fun a b => Agree E (· = ·) (p a) (q b)) as bs) : Agree E (· = ·) (as.anyM p) (bs.anyM q) := by
  induction h with
  | nil => exact rfl
  | cons hab _ ih =>
    rw [List.anyM_cons, List.anyM_cons]
    refine hab.bind ?_
    rintro b _ rfl
    cases b with
    | true => exact rfl
    | false => exact ih

theorem allM {p : α → Except ε Bool} {q : β → Except ε' Bool} {as : List α} {bs : List β}
    (h : List.Forall₂ (fun a b => Agree E (· = ·) (p a) (q b)) as bs) : Agree E (· = ·) (as.allM p) (bs.allM q) := by
  induction h with
  | nil => exact rfl
  | cons hab _ ih =>
    rw [List.allM_cons, List.allM_cons]
    refine hab.bind ?_
    rintro b _ rfl
    cases b with
    | true => exact ih
    | false => exact rfl

/-- Folds over related lists keep their results related. -/
theorem foldlM {γ δ : Type} {S : γ → δ → Prop} {f : γ → α → Except ε γ} {g : δ → β → Except ε' δ} {as : List α}
    {bs : List β} (h : List.Forall₂ R as bs)
    (hf : ∀ c d a b, S c d → R a b → Agree E S (f c a) (g d b)) {c : γ} {d : δ} (hcd : S c d) :
    Agree E S (as.foldlM f c) (bs.foldlM g d) := by
  induction h generalizing c d with
  | nil => exact hcd
  | cons hab _ ih =>
    rw [List.foldlM_cons, List.foldlM_cons]
    exact (hf _ _ _ _ hcd hab).bind fun _ _ h => ih h

/-- Runs that agree on equal answers give the same answer. -/
theorem ok_iff {y : Except ε' α} (h : Agree E (· = ·) x y) (a : α) : x = .ok a ↔ y = .ok a := by
  cases x <;> cases y <;> simp_all [Agree]

theorem eq {y : Except ε α} (h : Agree (· = ·) (· = ·) x y) : x = y := by
  cases x <;> cases y <;> simp_all [Agree]

end Agree

end Schemata
