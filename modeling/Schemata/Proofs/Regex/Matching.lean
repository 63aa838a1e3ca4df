import Schemata.Regex.Match
import Mathlib.Data.List.Basic
import Mathlib.Logic.Relation
import Mathlib.Tactic.SplitIfs

/-! What a search finds. Apart from looks, references to groups, and parts that keep their first match, the ends that are
found for an expression are those of its matches, and a match is described without any order of trying. -/
namespace Schemata.Regex

/-- So many steps lead from one thing to another. -/
inductive Chain {α : Type} (R : α → α → Prop) : Nat → α → α → Prop
  | zero (a : α) : Chain R 0 a a
  | succ {n : Nat} {a b c : α} : R a b → Chain R n b c → Chain R (n + 1) a c

theorem Chain.snoc {α : Type} {R : α → α → Prop} {n : Nat} {a b c : α} (h : Chain R n a b) (hbc : R b c) :
    Chain R (n + 1) a c := by
  induction h with
  | zero a => exact .succ hbc (.zero c)
  | succ hab _ ih => exact .succ hab (ih hbc)

/-! Walks of a repetition whose rounds consume something. -/

section Walks

variable {r : Rounds} {size : Nat} {step : Spot → List Spot} {greedy : Bool}

/-- Every round moves on, and not beyond the end of the text. -/
def Advances (size : Nat) (step : Spot → List Spot) : Prop :=
  ∀ s, s.place ≤ size → ∀ e ∈ step s, s.place < e.place ∧ e.place ≤ size

/-- One more round from a state of a repetition. -/
def Rounds.Goes (r : Rounds) (step : Spot → List Spot) (a b : Nat × Spot) : Prop :=
  (a.1 < r.least ∨ r.mayGoOn a.1 = true) ∧ b.2 ∈ step a.2 ∧ b.1 = r.next a.1

namespace Walk

/-- States that were left are done with: their ends are noted, and so are the states behind them. -/
structure Closed (r : Rounds) (step : Spot → List Spot) (w : Walk) : Prop where
  ends : ∀ a ∈ w.left, r.least ≤ a.1 → a.2 ∈ w.ends
  onward : ∀ a ∈ w.left, ∀ b, r.Goes step a b → b ∈ w.left

/-- Nothing that was noted is dropped. -/
structure Grows (w w' : Walk) : Prop where
  left : w.left ⊆ w'.left
  ends : w.ends ⊆ w'.ends

theorem Grows.refl (w : Walk) : w.Grows w := ⟨List.Subset.refl _, List.Subset.refl _⟩

theorem Grows.trans {w w' w'' : Walk} (h : w.Grows w') (h' : w'.Grows w'') : w.Grows w'' :=
  ⟨List.Subset.trans h.left h'.left, List.Subset.trans h.ends h'.ends⟩

@[simp] theorem left_found (w : Walk) (s : Spot) : (w.found s).left = w.left := by
  unfold found
  split_ifs <;> rfl

theorem mem_found {w : Walk} {s e : Spot} : e ∈ (w.found s).ends ↔ e = s ∨ e ∈ w.ends := by
  unfold found
  split_ifs with h
  · have hmem : s ∈ w.ends := by simpa using h
    exact ⟨Or.inr, fun he => he.elim (fun hes => hes ▸ hmem) id⟩
  · exact List.mem_cons

theorem grows_found (w : Walk) (s : Spot) : w.Grows (w.found s) :=
  ⟨by simp, fun _ he => mem_found.mpr (Or.inr he)⟩

theorem Closed.found {w : Walk} (h : w.Closed r step) (s : Spot) : (w.found s).Closed r step := by
  refine ⟨fun a ha hleast => mem_found.mpr (Or.inr (h.ends a ?_ hleast)), fun a ha b hab => ?_⟩
  · simpa using ha
  · simpa using h.onward a (by simpa using ha) b hab

/-- The walk leaves the states of its goals, one after the other. -/
theorem foldl_closed {f : Walk → Spot → Walk} {k : Nat} {es : List Spot}
    (hf : ∀ w, w.Closed r step → ∀ e ∈ es, (f w e).Closed r step ∧ w.Grows (f w e) ∧ (k, e) ∈ (f w e).left)
    {w : Walk} (hw : w.Closed r step) :
    (es.foldl f w).Closed r step ∧ w.Grows (es.foldl f w) ∧ ∀ e ∈ es, (k, e) ∈ (es.foldl f w).left := by
  induction es generalizing w with
  | nil => exact ⟨hw, .refl w, List.forall_mem_nil _⟩
  | cons e es ih =>
    obtain ⟨hclosed, hgrows, hleft⟩ := hf w hw e (List.mem_cons_self ..)
    obtain ⟨hclosed', hgrows', hall⟩ := ih (fun w hw e he => hf w hw e (List.mem_cons_of_mem _ he)) hclosed
    exact ⟨hclosed', hgrows.trans hgrows', List.forall_mem_cons.mpr ⟨hgrows'.left hleft, hall⟩⟩

/-- A walk goes through the states behind a state, notes its end, and leaves it. -/
theorem onward_succ {fuel done : Nat} {w : Walk} {s : Spot} (hs : ∀ e ∈ step s, s.place < e.place) :
    onward r greedy step (fuel + 1) done w s =
      if (done, s) ∈ w.left then w
      else
        let before := if done < r.least ∨ greedy = true then w else w.found s
        let through := if done < r.least ∨ r.mayGoOn done = true then
          (step s).foldl (onward r greedy step fuel (r.next done)) before else before
        let after := if done < r.least then through else through.found s
        { after with left := (done, s) :: after.left } := by
  have hmoves : ∀ w : Walk, (step s).foldl (fun w e => if e.place = s.place then w.found e
      else onward r greedy step fuel (r.next done) w e) w =
        (step s).foldl (onward r greedy step fuel (r.next done)) w := by
    intro w
    refine List.foldl_ext _ _ w fun w e he => ?_
    rw [if_neg (Nat.ne_of_gt (hs e he))]
  rw [onward]
  simp only [hmoves, List.contains_iff_mem]
  by_cases hleast : done < r.least <;> simp [hleast]

/-- A state that is left with enough fuel is done with. -/
theorem onward_closed (hstep : Advances size step) (fuel done : Nat) {w : Walk} (hw : w.Closed r step) {s : Spot}
    (hs : s.place ≤ size) (hfuel : size < s.place + fuel) :
    (onward r greedy step fuel done w s).Closed r step ∧ w.Grows (onward r greedy step fuel done w s) ∧
      (done, s) ∈ (onward r greedy step fuel done w s).left := by
  induction fuel generalizing done w s with
  | zero => omega
  | succ fuel ih =>
    rw [onward_succ fun e he => (hstep s hs e he).1]
    by_cases hknown : (done, s) ∈ w.left
    · rw [if_pos hknown]
      exact ⟨hw, .refl w, hknown⟩
    rw [if_neg hknown]
    dsimp only
    set before := if done < r.least ∨ greedy = true then w else w.found s with hbefore
    have hw₁ : before.Closed r step ∧ w.Grows before := by
      rw [hbefore]
      split_ifs
      · exact ⟨hw, .refl w⟩
      · exact ⟨hw.found s, grows_found w s⟩
    set through := if done < r.least ∨ r.mayGoOn done = true then
      (step s).foldl (onward r greedy step fuel (r.next done)) before else before with hthrough
    have hw₂ : through.Closed r step ∧ before.Grows through ∧
        ∀ b, r.Goes step (done, s) b → b ∈ through.left := by
      rw [hthrough]
      split_ifs with hgo
      · obtain ⟨hclosed, hgrows, hall⟩ := foldl_closed (k := r.next done) (fun w hw e he =>
          ih (r.next done) hw (hstep s hs e he).2 (by have := (hstep s hs e he).1; omega)) hw₁.1
        refine ⟨hclosed, hgrows, ?_⟩
        rintro ⟨d, e⟩ ⟨-, he, rfl⟩
        exact hall e he
      · exact ⟨hw₁.1, .refl _, fun b hb => absurd hb.1 hgo⟩
    set after := if done < r.least then through else through.found s with hafter
    have hw₃ : after.Closed r step ∧ through.Grows after ∧ (r.least ≤ done → s ∈ after.ends) := by
      rw [hafter]
      split_ifs with hleast
      · exact ⟨hw₂.1, .refl _, fun h => by omega⟩
      · exact ⟨hw₂.1.found s, grows_found _ s, fun _ => mem_found.mpr (Or.inl rfl)⟩
    refine ⟨⟨?_, ?_⟩, ⟨?_, ?_⟩, List.mem_cons_self ..⟩
    · exact List.forall_mem_cons.mpr ⟨hw₃.2.2, hw₃.1.ends⟩
    · refine List.forall_mem_cons.mpr ⟨fun b hb => ?_, fun a ha b hab => ?_⟩
      · exact List.mem_cons_of_mem _ (hw₃.2.1.left (hw₂.2.2 b hb))
      · exact List.mem_cons_of_mem _ (hw₃.1.onward a ha b hab)
    · exact fun a ha => List.mem_cons_of_mem _ (hw₃.2.1.left (hw₂.2.1.left (hw₁.2.left ha)))
    · exact fun e he => hw₃.2.1.ends (hw₂.2.1.ends (hw₁.2.ends he))

/-- Only ends that satisfy `good` are noted, if it holds of all ends of the states that can be met. -/
theorem onward_sound {P : Nat × Spot → Prop} {good : Spot → Prop} (hmet : ∀ a b, P a → r.Goes step a b → P b)
    (hgood : ∀ a, P a → r.least ≤ a.1 → good a.2) (hstep : Advances size step) (fuel done : Nat) {w : Walk}
    (hw : ∀ e ∈ w.ends, good e) {s : Spot} (hs : s.place ≤ size) (h : P (done, s)) :
    ∀ e ∈ (onward r greedy step fuel done w s).ends, good e := by
  induction fuel generalizing done w s with
  | zero => exact hw
  | succ fuel ih =>
    rw [onward_succ fun e he => (hstep s hs e he).1]
    have hfound : ¬ done < r.least → ∀ w : Walk, (∀ e ∈ w.ends, good e) → ∀ e ∈ (w.found s).ends, good e := by
      intro hleast w hw e he
      rcases mem_found.mp he with rfl | he
      · exact hgood _ h (Nat.le_of_not_lt hleast)
      · exact hw e he
    by_cases hknown : (done, s) ∈ w.left
    · rw [if_pos hknown]
      exact hw
    rw [if_neg hknown]
    dsimp only
    set before := if done < r.least ∨ greedy = true then w else w.found s with hbefore
    have hw₁ : ∀ e ∈ before.ends, good e := by
      rw [hbefore]
      split_ifs with hor
      · exact hw
      · exact hfound (fun hleast => hor (Or.inl hleast)) w hw
    set through := if done < r.least ∨ r.mayGoOn done = true then
      (step s).foldl (onward r greedy step fuel (r.next done)) before else before with hthrough
    have hw₂ : ∀ e ∈ through.ends, good e := by
      rw [hthrough]
      split_ifs with hgo
      · have hfold : ∀ es ⊆ step s, ∀ w : Walk, (∀ e ∈ w.ends, good e) →
            ∀ e ∈ (es.foldl (onward r greedy step fuel (r.next done)) w).ends, good e := by
          intro es hes
          induction es with
          | nil => exact fun w hw => hw
          | cons e es ihes =>
            intro w hw
            obtain ⟨he, hes⟩ := List.cons_subset.mp hes
            exact ihes hes _ (ih (r.next done) hw (hstep s hs e he).2 (hmet _ _ h ⟨hgo, he, rfl⟩))
        exact hfold _ (List.Subset.refl _) _ hw₁
      · exact hw₁
    split_ifs with hleast
    · exact hw₂
    · exact hfound hleast through hw₂

/-- The ends of a repetition are those of the states that can be met after enough rounds. -/
theorem mem_run (hstep : Advances size step) {starts : List Spot} (hstarts : ∀ s ∈ starts, s.place ≤ size) {e : Spot} :
    e ∈ run r size greedy step starts ↔
      ∃ s ∈ starts, ∃ d, Relation.ReflTransGen (r.Goes step) (0, s) (d, e) ∧ r.least ≤ d := by
  rw [run, List.mem_reverse]
  constructor
  · have hfold : ∀ ss ⊆ starts, ∀ w : Walk, (∀ e ∈ w.ends, ∃ s ∈ starts, ∃ d,
        Relation.ReflTransGen (r.Goes step) (0, s) (d, e) ∧ r.least ≤ d) →
        ∀ e ∈ (ss.foldl (onward r greedy step (r.fuel size) 0) w).ends, ∃ s ∈ starts, ∃ d,
          Relation.ReflTransGen (r.Goes step) (0, s) (d, e) ∧ r.least ≤ d := by
      intro ss hss
      induction ss with
      | nil => exact fun w hw => hw
      | cons s ss ih =>
        intro w hw
        obtain ⟨hs, hss⟩ := List.cons_subset.mp hss
        refine ih hss _ ?_
        exact onward_sound (P := fun a => Relation.ReflTransGen (r.Goes step) (0, s) a)
          (fun a b ha hab => ha.tail hab) (fun a ha hleast => ⟨s, hs, a.1, ha, hleast⟩) hstep _ 0 hw (hstarts s hs) .refl
    exact hfold _ (List.Subset.refl _) _ (List.forall_mem_nil _) e
  · rintro ⟨s, hs, d, hreach, hleast⟩
    obtain ⟨hclosed, -, hall⟩ := foldl_closed (k := 0) (w := ⟨[], []⟩) (r := r)
      (f := onward r greedy step (r.fuel size) 0)
      (fun w hw s hs => onward_closed hstep _ 0 hw (hstarts s hs) (by unfold Rounds.fuel; omega))
      ⟨List.forall_mem_nil _, List.forall_mem_nil _⟩
    have hmet : ∀ a, Relation.ReflTransGen (r.Goes step) (0, s) a →
        a ∈ (starts.foldl (onward r greedy step (r.fuel size) 0) ⟨[], []⟩).left := by
      intro a ha
      induction ha with
      | refl => exact hall s hs
      | tail _ hab ih => exact hclosed.onward _ ih _ hab
    exact hclosed.ends _ (hmet _ hreach) hleast

end Walk

/-- Places of a chain of rounds grow with every round. -/
theorem Chain.place_le (hstep : Advances size step) {n : Nat} {s e : Spot} (h : Chain (fun s e => e ∈ step s) n s e)
    (hs : s.place ≤ size) : s.place + n ≤ e.place ∧ e.place ≤ size := by
  induction h with
  | zero s => exact ⟨Nat.le_refl _, hs⟩
  | succ hse _ ih =>
    obtain ⟨hlt, hle⟩ := hstep _ hs _ hse
    have := ih hle
    omega

/-- The number that a repetition keeps of the rounds done. -/
def Rounds.kept (r : Rounds) (n : Nat) : Nat :=
  if r.most.isSome then n else min n r.least

theorem Rounds.next_kept (r : Rounds) (n : Nat) : r.next (r.kept n) = r.kept (n + 1) := by
  unfold next kept
  split_ifs <;> simp_all <;> omega

/-- The states that can be met are those behind chains of rounds that do not exceed the greatest number. -/
theorem Rounds.reaches_iff {s e : Spot} {d : Nat} :
    Relation.ReflTransGen (r.Goes step) (0, s) (d, e) ↔ ∃ n, d = r.kept n ∧
      Chain (fun s e => e ∈ step s) n s e ∧ ∀ k < n, r.kept k < r.least ∨ r.mayGoOn (r.kept k) = true := by
  constructor
  · intro h
    generalize hb : (d, e) = b at h
    induction h generalizing d e with
    | refl =>
      obtain ⟨rfl, rfl⟩ := Prod.mk.inj hb
      refine ⟨0, ?_, .zero _, by omega⟩
      unfold kept
      split_ifs <;> simp
    | @tail a b _ hab ih =>
      subst hb
      obtain ⟨n, ha, hchain, hgo⟩ := ih rfl
      obtain ⟨hgoes, he, hd⟩ := hab
      refine ⟨n + 1, by rw [show d = r.next a.1 from hd, ha, r.next_kept], hchain.snoc he, fun k hk => ?_⟩
      rcases Nat.lt_succ_iff_lt_or_eq.mp hk with hk | rfl
      · exact hgo k hk
      · exact ha ▸ hgoes
  · rintro ⟨n, rfl, hchain, hgo⟩
    have hfrom : ∀ n m : Nat, ∀ s e : Spot, Chain (fun s e => e ∈ step s) n s e →
        (∀ k < m + n, r.kept k < r.least ∨ r.mayGoOn (r.kept k) = true) →
        Relation.ReflTransGen (r.Goes step) (r.kept m, s) (r.kept (m + n), e) := by
      intro n m s e h hgo
      induction h generalizing m with
      | zero => exact .refl
      | @succ n a b c hab _ ih =>
        have hgoes : r.Goes step (r.kept m, a) (r.kept (m + 1), b) := ⟨hgo m (by omega), hab, (r.next_kept m).symm⟩
        have hrest := ih (m + 1) fun k hk => hgo k (by omega)
        rw [show m + 1 + n = m + (n + 1) by omega] at hrest
        exact .head hgoes hrest
    have hzero : r.kept 0 = 0 := by
      unfold kept
      split_ifs <;> simp
    simpa only [hzero, Nat.zero_add] using hfrom n 0 s e hchain (by simpa using hgo)

/-- The ends of a repetition are those of the chains of a permitted number of rounds. -/
theorem mem_repetition (hstep : Advances size step) {appetite : Appetite} (happetite : appetite ≠ .possessive)
    {least : Nat} {most : Option Nat} (hmost : ∀ m, most = some m → least ≤ m) {starts : List Spot}
    (hstarts : ∀ s ∈ starts, s.place ≤ size) {e : Spot} :
    e ∈ repetition size appetite least most step starts ↔ ∃ s ∈ starts, ∃ n, least ≤ n ∧
      (∀ m, most = some m → n ≤ m) ∧ Chain (fun s e => e ∈ step s) n s e := by
  have hrun : e ∈ repetition size appetite least most step starts ↔ ∃ s ∈ starts, ∃ d,
      Relation.ReflTransGen ((Rounds.within size least most).Goes step) (0, s) (d, e) ∧
        (Rounds.within size least most).least ≤ d := by
    cases appetite with
    | greedy => exact Walk.mem_run hstep hstarts
    | lazy => exact Walk.mem_run hstep hstarts
    | possessive => exact absurd rfl happetite
  rw [hrun]
  refine exists_congr fun s => and_congr_right fun hs => ?_
  simp only [Rounds.reaches_iff]
  -- A chain has no more rounds than the text has characters, so bounds beyond that number make no difference.
  have hbound : ∀ n, Chain (fun s e => e ∈ step s) n s e → n ≤ size := fun n h => by
    have := h.place_le hstep (hstarts s hs)
    omega
  have hkept : ∀ n ≤ size,
      least ≤ n ↔ (Rounds.within size least most).least ≤ (Rounds.within size least most).kept n := by
    intro n hn
    cases most <;> simp only [Rounds.kept, Rounds.within, Option.map_none, Option.map_some, Option.isSome_none,
      Option.isSome_some, Bool.false_eq_true, if_false, if_true] <;> omega
  have hgoes : ∀ k < size, (Rounds.within size least most).kept k < (Rounds.within size least most).least ∨
      (Rounds.within size least most).mayGoOn ((Rounds.within size least most).kept k) = true ↔
        ∀ m, most = some m → k < m := by
    intro k hk
    cases most with
    | none => simp [Rounds.mayGoOn, Rounds.within]
    | some m =>
      have := hmost m rfl
      simp only [Rounds.kept, Rounds.within, Rounds.mayGoOn, Option.map_some, Option.isSome_some, if_true,
        decide_eq_true_eq, Option.some.injEq, forall_eq']
      omega
  constructor
  · rintro ⟨_, ⟨n, rfl, hchain, hgo⟩, hleast⟩
    have hn := hbound n hchain
    refine ⟨n, (hkept n hn).mpr hleast, fun m hm => ?_, hchain⟩
    by_contra hlt
    exact absurd ((hgoes m (by omega)).mp (hgo m (by omega)) m hm) (Nat.lt_irrefl m)
  · rintro ⟨n, hleast, hle, hchain⟩
    have hn := hbound n hchain
    exact ⟨_, ⟨n, rfl, hchain, fun k hk => (hgoes k (by omega)).mpr fun m hm => by have := hle m hm; omega⟩,
      (hkept n hn).mp hleast⟩

end Walks

section Matches

mutual
/-- A match of the expression begins at the first place and ends at the second. -/
def Matches (text : Subject) : RegexFlags → Regex → Nat → Nat → Prop
  | flags, .char t, p, q => q = p + 1 ∧ ∃ c, text[p]? = some c ∧ t.holds flags c = true
  | flags, .anchor a, p, q => q = p ∧ anchored flags text p a = true
  | flags, .sequence parts, p, q => MatchesAll text flags parts p q
  | flags, .choice parts, p, q => MatchesAny text flags parts p q
  | flags, .repeated _ least most part, p, q =>
    ∃ n, least ≤ n ∧ (∀ m, most = some m → n ≤ m) ∧ Chain (Matches text flags part) n p q
  | flags, .group _ part, p, q => Matches text flags part p q
  | _, .flagged flags part, p, q => Matches text flags part p q
  | _, _, _, _ => False
termination_by structural _ r => r
/-- The parts match one after the other. -/
def MatchesAll (text : Subject) : RegexFlags → List Regex → Nat → Nat → Prop
  | _, [], p, q => q = p
  | flags, r :: rest, p, q => ∃ m, Matches text flags r p m ∧ MatchesAll text flags rest m q
termination_by structural _ rs => rs
/-- One of the parts matches. -/
def MatchesAny (text : Subject) : RegexFlags → List Regex → Nat → Nat → Prop
  | _, [], _, _ => False
  | flags, r :: rest, p, q => Matches text flags r p q ∨ MatchesAny text flags rest p q
termination_by structural _ rs => rs
end

mutual
/-- Every match is of one character at least. -/
def consumes : Regex → Bool
  | .char _ => true
  | .sequence parts => someConsumes parts
  | .choice parts => allConsume parts
  | .repeated _ least _ part => decide (0 < least) && consumes part
  | .group _ part => consumes part
  | .flagged _ part => consumes part
  | _ => false
termination_by structural r => r
def someConsumes : List Regex → Bool
  | [] => false
  | r :: rest => consumes r || someConsumes rest
termination_by structural rs => rs
def allConsume : List Regex → Bool
  | [] => true
  | r :: rest => consumes r && allConsume rest
termination_by structural rs => rs
end

mutual
/-- The expression has no looks, no references to groups and no parts that keep their first match; what it repeats
consumes something. -/
def isPlain : Regex → Bool
  | .char _ => true
  | .anchor _ => true
  | .sequence parts => arePlain parts
  | .choice parts => arePlain parts
  | .repeated appetite least most part =>
    appetite != .possessive && most.all (decide <| least ≤ ·) && consumes part && isPlain part
  | .group _ part => isPlain part
  | .flagged _ part => isPlain part
  | _ => false
termination_by structural r => r
def arePlain : List Regex → Bool
  | [] => true
  | r :: rest => isPlain r && arePlain rest
termination_by structural rs => rs
end

variable {text : Subject} {n p q : Nat}

theorem Chain.le {R : Nat → Nat → Prop} {bound : Nat}
    (hR : ∀ p q, R p q → p ≤ bound → p ≤ q ∧ q ≤ bound) (h : Chain R n p q) (hp : p ≤ bound) : p ≤ q ∧ q ≤ bound := by
  induction h with
  | zero => exact ⟨Nat.le_refl _, hp⟩
  | succ hab _ ih =>
    obtain ⟨hle, hbound⟩ := hR _ _ hab hp
    exact ⟨Nat.le_trans hle (ih hbound).1, (ih hbound).2⟩

mutual
/-- A match ends no earlier than it begins, and not beyond the end of the text. -/
theorem matches_le (flags : RegexFlags) (r : Regex) {p q : Nat} (h : Matches text flags r p q) (hp : p ≤ text.size) :
    p ≤ q ∧ q ≤ text.size := by
  cases r with
  | char t =>
    obtain ⟨rfl, c, hc, -⟩ := h
    have := (Array.getElem?_eq_some_iff.mp hc).1
    omega
  | anchor a =>
    obtain ⟨rfl, -⟩ := h
    exact ⟨Nat.le_refl _, hp⟩
  | sequence parts => exact matchesAll_le flags parts h hp
  | choice parts => exact matchesAny_le flags parts h hp
  | repeated _ least most part =>
    obtain ⟨n, -, -, hchain⟩ := h
    exact hchain.le (fun p q hpq => matches_le flags part hpq) hp
  | group _ part => exact matches_le flags part h hp
  | flagged flags' part => exact matches_le flags' part h hp
  | _ => exact h.elim
termination_by structural r
theorem matchesAll_le (flags : RegexFlags) (rs : List Regex) {p q : Nat} (h : MatchesAll text flags rs p q)
    (hp : p ≤ text.size) : p ≤ q ∧ q ≤ text.size := by
  cases rs with
  | nil =>
    obtain rfl := h
    exact ⟨Nat.le_refl _, hp⟩
  | cons r rest =>
    obtain ⟨m, hr, hrest⟩ := h
    obtain ⟨hpm, hm⟩ := matches_le flags r hr hp
    obtain ⟨hmq, hq⟩ := matchesAll_le flags rest hrest hm
    exact ⟨Nat.le_trans hpm hmq, hq⟩
termination_by structural rs
theorem matchesAny_le (flags : RegexFlags) (rs : List Regex) {p q : Nat} (h : MatchesAny text flags rs p q)
    (hp : p ≤ text.size) : p ≤ q ∧ q ≤ text.size := by
  cases rs with
  | nil => exact h.elim
  | cons r rest =>
    rcases h with hr | hrest
    · exact matches_le flags r hr hp
    · exact matchesAny_le flags rest hrest hp
termination_by structural rs
end

mutual
theorem lt_of_consumes (flags : RegexFlags) (r : Regex) (hr : r.consumes = true) {p q : Nat}
    (h : Matches text flags r p q) (hp : p ≤ text.size) : p < q := by
  cases r with
  | char t =>
    obtain ⟨rfl, -⟩ := h
    omega
  | sequence parts => exact lt_of_someConsumes flags parts hr h hp
  | choice parts => exact lt_of_allConsume flags parts hr h hp
  | repeated _ least most part =>
    obtain ⟨n, hn, -, hchain⟩ := h
    simp only [consumes, Bool.and_eq_true, decide_eq_true_eq] at hr
    cases hchain with
    | zero => omega
    | succ hpm hrest =>
      have hlt := lt_of_consumes flags part hr.2 hpm hp
      have := hrest.le (fun p q hpq => matches_le flags part hpq) (matches_le flags part hpm hp).2
      omega
  | group _ part => exact lt_of_consumes flags part hr h hp
  | flagged flags' part => exact lt_of_consumes flags' part hr h hp
  | _ => simp [consumes] at hr
termination_by structural r
theorem lt_of_someConsumes (flags : RegexFlags) (rs : List Regex) (hrs : someConsumes rs = true) {p q : Nat}
    (h : MatchesAll text flags rs p q) (hp : p ≤ text.size) : p < q := by
  cases rs with
  | nil => simp [someConsumes] at hrs
  | cons r rest =>
    obtain ⟨m, hr, hrest⟩ := h
    obtain ⟨hpm, hm⟩ := matches_le flags r hr hp
    obtain ⟨hmq, -⟩ := matchesAll_le flags rest hrest hm
    rcases Bool.or_eq_true _ _ ▸ hrs with hfirst | hlater
    · exact Nat.lt_of_lt_of_le (lt_of_consumes flags r hfirst hr hp) hmq
    · exact Nat.lt_of_le_of_lt hpm (lt_of_someConsumes flags rest hlater hrest hm)
termination_by structural rs
theorem lt_of_allConsume (flags : RegexFlags) (rs : List Regex) (hrs : allConsume rs = true) {p q : Nat}
    (h : MatchesAny text flags rs p q) (hp : p ≤ text.size) : p < q := by
  cases rs with
  | nil => exact h.elim
  | cons r rest =>
    simp only [allConsume, Bool.and_eq_true] at hrs
    rcases h with hr | hrest
    · exact lt_of_consumes flags r hrs.1 hr hp
    · exact lt_of_allConsume flags rest hrs.2 hrest hp
termination_by structural rs
end

theorem mem_distinct {ss : List Spot} {s : Spot} : s ∈ distinct ss ↔ s ∈ ss := by
  have hfold : ∀ ss kept : List Spot,
      s ∈ ss.foldl (fun kept s => if kept.contains s then kept else s :: kept) kept ↔ s ∈ kept ∨ s ∈ ss := by
    intro ss
    induction ss with
    | nil => simp
    | cons t ss ih =>
      intro kept
      rw [List.foldl_cons, ih]
      split_ifs with ht
      · have : t ∈ kept := by simpa using ht
        grind
      · grind
  simpa [distinct] using hfold ss []

/-- Steps between spots are steps between their places. -/
theorem chain_spots {R : Nat → Nat → Prop} {size : Nat} {step : Spot → List Spot}
    (hR : ∀ p q, R p q → p ≤ size → q ≤ size)
    (hstep : ∀ s : Spot, s.place ≤ size → ∀ e, e ∈ step s ↔ ∃ q, e = { s with place := q } ∧ R s.place q) {s e : Spot}
    (hs : s.place ≤ size) :
    Chain (fun s e => e ∈ step s) n s e ↔ ∃ q, e = { s with place := q } ∧ Chain R n s.place q := by
  constructor
  · intro h
    induction h with
    | zero s => exact ⟨s.place, rfl, .zero _⟩
    | succ hse _ ih =>
      obtain ⟨m, rfl, hm⟩ := (hstep _ hs _).mp hse
      obtain ⟨q, rfl, hq⟩ := ih (hR _ _ hm hs)
      exact ⟨q, rfl, .succ hm hq⟩
  · rintro ⟨q, rfl, h⟩
    generalize hp : s.place = p at h
    induction h generalizing s with
    | zero p =>
      subst hp
      exact .zero s
    | @succ n p m q hm _ ih =>
      subst hp
      exact .succ ((hstep s hs _).mpr ⟨m, rfl, hm⟩) (ih (s := { s with place := m }) (hR _ _ hm hs) rfl)

mutual
/-- The ends found are those of the matches that begin at the starts. -/
theorem mem_ends (flags : RegexFlags) (r : Regex) (hr : r.isPlain = true) {starts : List Spot}
    (hstarts : ∀ s ∈ starts, s.place ≤ text.size) {e : Spot} :
    e ∈ ends [] text flags r starts ↔
      ∃ s ∈ starts, ∃ q, e = { s with place := q } ∧ Matches text flags r s.place q := by
  cases r with
  | char t =>
    simp only [ends, consume, List.mem_map, List.mem_filter, Matches]
    constructor
    · rintro ⟨s, ⟨hs, hholds⟩, rfl⟩
      cases hc : text[s.place]? with
      | none => simp [hc] at hholds
      | some c => exact ⟨s, hs, s.place + 1, rfl, rfl, c, hc, by simpa [hc] using hholds⟩
    · rintro ⟨s, hs, q, rfl, rfl, c, hc, hholds⟩
      exact ⟨s, ⟨hs, by simpa [hc] using hholds⟩, rfl⟩
  | anchor a =>
    simp only [ends, List.mem_filter, Matches]
    constructor
    · rintro ⟨he, ha⟩
      exact ⟨e, he, e.place, rfl, rfl, ha⟩
    · rintro ⟨s, hs, q, rfl, rfl, ha⟩
      exact ⟨hs, ha⟩
  | sequence parts => exact mem_endsAll flags parts hr hstarts
  | choice parts =>
    rw [ends, mem_distinct, List.mem_flatMap]
    refine exists_congr fun s => and_congr_right fun hs => ?_
    exact mem_endsAny flags parts hr (hstarts s hs)
  | repeated appetite least most part =>
    simp only [isPlain, Bool.and_eq_true, bne_iff_ne] at hr
    obtain ⟨⟨⟨happetite, hmost⟩, hconsumes⟩, hpart⟩ := hr
    have hstep : ∀ s : Spot, s.place ≤ text.size → ∀ e, e ∈ ends [] text flags part [s] ↔
        ∃ q, e = { s with place := q } ∧ Matches text flags part s.place q := by
      intro s hs e
      rw [mem_ends flags part hpart (List.forall_mem_singleton.mpr hs)]
      simp only [List.mem_singleton, exists_eq_left]
    have hadvances : Advances text.size fun s => ends [] text flags part [s] := by
      intro s hs e he
      obtain ⟨q, rfl, hq⟩ := (hstep s hs e).mp he
      exact ⟨lt_of_consumes flags part hconsumes hq hs, (matches_le flags part hq hs).2⟩
    have hbounds : ∀ m, most = some m → least ≤ m := by
      rintro m rfl
      simpa using hmost
    rw [ends, mem_repetition hadvances happetite hbounds hstarts]
    refine exists_congr fun s => and_congr_right fun hs => ?_
    simp only [chain_spots (fun p q hpq hp => (matches_le flags part hpq hp).2) hstep (hstarts s hs), Matches]
    constructor
    · rintro ⟨n, hn, hm, q, rfl, hchain⟩
      exact ⟨q, rfl, n, hn, hm, hchain⟩
    · rintro ⟨q, rfl, n, hn, hm, hchain⟩
      exact ⟨n, hn, hm, q, rfl, hchain⟩
  | group _ part => exact mem_ends flags part hr hstarts
  | flagged flags' part => exact mem_ends flags' part hr hstarts
  | _ => simp [isPlain] at hr
termination_by structural r
theorem mem_endsAll (flags : RegexFlags) (rs : List Regex) (hrs : arePlain rs = true) {starts : List Spot}
    (hstarts : ∀ s ∈ starts, s.place ≤ text.size) {e : Spot} :
    e ∈ endsAll [] text flags rs starts ↔
      ∃ s ∈ starts, ∃ q, e = { s with place := q } ∧ MatchesAll text flags rs s.place q := by
  cases rs with
  | nil =>
    simp only [endsAll, MatchesAll]
    constructor
    · intro he
      exact ⟨e, he, e.place, rfl, rfl⟩
    · rintro ⟨s, hs, q, rfl, rfl⟩
      exact hs
  | cons r rest =>
    simp only [arePlain, Bool.and_eq_true] at hrs
    have hr : ∀ e, e ∈ ends [] text flags r starts ↔ _ := fun e => mem_ends flags r hrs.1 hstarts
    have hmiddle : ∀ s ∈ ends [] text flags r starts, s.place ≤ text.size := by
      intro s hs
      obtain ⟨t, ht, q, rfl, hq⟩ := (hr s).mp hs
      exact (matches_le flags r hq (hstarts t ht)).2
    rw [endsAll, mem_endsAll flags rest hrs.2 hmiddle]
    simp only [hr, MatchesAll]
    constructor
    · rintro ⟨_, ⟨s, hs, m, rfl, hm⟩, q, rfl, hq⟩
      exact ⟨s, hs, q, rfl, m, hm, hq⟩
    · rintro ⟨s, hs, q, rfl, m, hm, hq⟩
      exact ⟨_, ⟨s, hs, m, rfl, hm⟩, q, rfl, hq⟩
termination_by structural rs
theorem mem_endsAny (flags : RegexFlags) (rs : List Regex) (hrs : arePlain rs = true) {s : Spot}
    (hs : s.place ≤ text.size) {e : Spot} :
    e ∈ endsAny [] text flags rs [s] ↔ ∃ q, e = { s with place := q } ∧ MatchesAny text flags rs s.place q := by
  cases rs with
  | nil => simp [endsAny, MatchesAny]
  | cons r rest =>
    simp only [arePlain, Bool.and_eq_true] at hrs
    rw [endsAny, List.mem_append, mem_ends flags r hrs.1 (List.forall_mem_singleton.mpr hs),
      mem_endsAny flags rest hrs.2 hs]
    simp only [List.mem_singleton, exists_eq_left, MatchesAny]
    constructor
    · rintro (⟨q, rfl, hq⟩ | ⟨q, rfl, hq⟩)
      · exact ⟨q, rfl, Or.inl hq⟩
      · exact ⟨q, rfl, Or.inr hq⟩
    · rintro ⟨q, rfl, hq | hq⟩
      · exact Or.inl ⟨q, rfl, hq⟩
      · exact Or.inr ⟨q, rfl, hq⟩
termination_by structural rs
end

mutual
theorem referred_of_plain (r : Regex) (hr : r.isPlain = true) : r.referred = [] := by
  cases r with
  | sequence parts => exact referredAny_of_plain parts hr
  | choice parts => exact referredAny_of_plain parts hr
  | repeated _ _ _ part =>
    simp only [isPlain, Bool.and_eq_true] at hr
    exact referred_of_plain part hr.2
  | group _ part => exact referred_of_plain part hr
  | flagged _ part => exact referred_of_plain part hr
  | char _ => rfl
  | anchor _ => rfl
  | _ => simp [isPlain] at hr
termination_by structural r
theorem referredAny_of_plain (rs : List Regex) (hrs : arePlain rs = true) : referredAny rs = [] := by
  cases rs with
  | nil => rfl
  | cons r rest =>
    simp only [arePlain, Bool.and_eq_true] at hrs
    rw [referredAny, referred_of_plain r hrs.1, referredAny_of_plain rest hrs.2, List.append_nil]
termination_by structural rs
end

/-- A search succeeds when some part of the text matches. -/
theorem search_iff {r : Regex} (hr : r.isPlain = true) (s : String) :
    r.search s = true ↔ ∃ p ≤ s.toList.length, ∃ q, Matches s.toList.toArray [] r p q := by
  have hstarts : ∀ t ∈ (List.range (s.toList.toArray.size + 1)).map Spot.start, t.place ≤ s.toList.toArray.size := by
    simp only [List.mem_map, List.mem_range]
    rintro _ ⟨p, hp, rfl⟩
    exact Nat.lt_succ_iff.mp hp
  rw [search, referred_of_plain r hr]
  simp only [Bool.not_eq_true', List.isEmpty_eq_false_iff_exists_mem, List.eraseDups_nil, mem_ends [] r hr hstarts]
  constructor
  · rintro ⟨_, t, ht, q, rfl, hq⟩
    exact ⟨t.place, by simpa using hstarts t ht, q, hq⟩
  · rintro ⟨p, hp, q, hq⟩
    exact ⟨_, .start p, List.mem_map_of_mem (List.mem_range.mpr (by simpa using Nat.lt_succ_iff.mpr hp)), q, rfl, hq⟩

end Matches

end Schemata.Regex
