import Mathlib.Data.List.Perm.Subperm
import Mathlib.Tactic.SplitIfs
import Schemata.Memo.Computation
import Schemata.Proofs.Schema.Hashing

/-! Computations that make requests of the memo they are run for, to any depth. Entries under way are never dropped, and
an entry is dropped only when another one is put in, so past its capacity the memo holds as many entries as were under
way at once. It never holds more. -/
namespace Schemata

/-- A computation that may request keys of the memo it is run for, each with a computation of its own and a test of the
results to be kept. What it does next depends on what the request gave. -/
inductive Job where
  | done (outcome : Except Fault Value)
  | request (key : Value) (cacheIf : Value → Bool) (job : Job) (next : Except Fault Value → Job)

namespace Memo

/-- Whether a result passes the test for being kept. -/
def passes (cacheIf : Value → Bool) : Except Fault Value → Bool
  | .ok v => cacheIf v
  | .error _ => true

/-- A request whose result is tested before it is kept. -/
def serve (key : Value) (cacheIf : Value → Bool) (work : ValueMemo → Computed) (m : ValueMemo) : Computed :=
  obtain key (passes cacheIf (work (m.request key).1).outcome) work m

/-- How many entries a request has under way at once, at most: its own, if it puts one in, and those of its computation,
if it runs it. -/
def burden (key : Value) (depth : ValueMemo → Nat) (m : ValueMemo) : Nat :=
  if key.changeable?.isSome then depth m
  else
    match m.request key with
    | (_, .known _) => 0
    | (m, .underway) => depth m
    | (m, .fresh) => depth m + 1

end Memo

namespace Job

def run : Job → ValueMemo → Computed
  | .done outcome, m => ⟨outcome, m, 1⟩
  | .request key cacheIf job next, m =>
    let inner := Memo.serve key cacheIf job.run m
    let rest := (next inner.outcome).run inner.memo
    { rest with calls := inner.calls + rest.calls }

/-- How many entries the job has under way at once, at most, when it is run for the memo. -/
def depth : Job → ValueMemo → Nat
  | .done _, _ => 0
  | .request key cacheIf job next, m =>
    let inner := Memo.serve key cacheIf job.run m
    max (Memo.burden key job.depth m) ((next inner.outcome).depth inner.memo)

end Job

namespace Computation

/-- A computation that requests one key and keeps every result. -/
def job : Computation → Job
  | .give v => .done (.ok v)
  | .fail e => .done (.error e)
  | .nested key work => .request key (fun _ => true) work.job fun outcome =>
    .done (outcome.map fun v => .list [.string "nested", v])

theorem passes_const {keep : Bool} {e : Except Fault Value} : Memo.keeps (Memo.passes (fun _ => keep) e) e =
    Memo.keeps keep e := by
  cases e <;> rfl

end Computation

namespace Memo

/-- A request that keeps its results or refuses them all is one with a test that looks at nothing. -/
theorem serve_const (key : Value) (keep : Bool) (work : ValueMemo → Computed) (m : ValueMemo) :
    serve key (fun _ => keep) work m = obtain key keep work m := by
  unfold serve obtain
  split_ifs
  · rfl
  · rcases m.request key with ⟨m, _ | _ | _⟩ <;> simp only [Computation.passes_const]

end Memo

namespace Computation

theorem run_job (c : Computation) : c.job.run = c.run := by
  induction c with
  | give v => rfl
  | fail e => rfl
  | nested key work ih =>
    funext m
    simp only [job, Job.run, run, Memo.serve_const, ih]

end Computation

namespace Memo

/-- A request of a memo by its users, or one of the other things that they can do with it. -/
inductive Use where
  | get (key : Value) (cacheIf : Value → Bool) (job : Job)
  | holds (key : Value)
  | clear

namespace Use

/-- The memo after the use. -/
def memo : Use → ValueMemo → ValueMemo
  | .get key cacheIf job, m => (serve key cacheIf job.run m).memo
  | .holds _, m => m
  | .clear, m => m.clear

/-- How many entries the use has under way at once, at most. -/
def depth : Use → ValueMemo → Nat
  | .get key _ job, m => burden key job.depth m
  | .holds _, _ => 0
  | .clear, _ => 0

end Use

/-- The memo after uses, one after the other. -/
def after (m : ValueMemo) (uses : List Use) : ValueMemo := uses.foldl (fun m use => use.memo m) m

/-- How many entries are under way at once, at most, during the uses. -/
def depth (m : ValueMemo) : List Use → Nat
  | [] => 0
  | use :: uses => max (use.depth m) ((use.memo m).depth uses)

/-! ### Entries under way -/

section Entries

variable {κ ρ : Type} {es : List (MemoEntry κ ρ)} {m : Memo κ ρ}

def underway (es : List (MemoEntry κ ρ)) : List (MemoEntry κ ρ) := es.filter fun e => e.outcome.isNone

theorem underway_append (es fs : List (MemoEntry κ ρ)) : underway (es ++ fs) = underway es ++ underway fs :=
  List.filter_append ..

theorem underway_dropSettled (excess : Nat) (es : List (MemoEntry κ ρ)) :
    underway (dropSettled excess es) = underway es := by
  induction es generalizing excess with
  | nil => cases excess <;> rfl
  | cons e es ih =>
    cases excess with
    | zero => rfl
    | succ excess =>
      unfold dropSettled
      cases he : e.outcome with
      | none => simpa [underway, he] using ih (excess + 1)
      | some r => simpa [underway, he] using ih excess

/-- What has to be dropped is dropped, unless too few entries have an outcome. -/
theorem length_dropSettled_le (excess : Nat) (es : List (MemoEntry κ ρ)) :
    (dropSettled excess es).length ≤ max (es.length - excess) (underway es).length := by
  induction es generalizing excess with
  | nil => cases excess <;> simp [dropSettled]
  | cons e es ih =>
    cases excess with
    | zero => simp [dropSettled]
    | succ excess =>
      unfold dropSettled
      cases he : e.outcome with
      | none =>
        have := ih (excess + 1)
        simp only [underway, he, Option.isSome_none, Bool.false_eq_true, if_false, List.length_cons, Option.isNone_none,
          List.filter_cons, if_true] at this ⊢
        omega
      | some r =>
        have := ih excess
        simp only [underway, he, Option.isSome_some, if_true, List.length_cons, Option.isNone_some, List.filter_cons,
          Bool.false_eq_true, if_false] at this ⊢
        omega

@[simp] theorem capacity_evict (m : Memo κ ρ) : m.evict.capacity = m.capacity := by
  unfold evict
  cases h : m.capacity <;> simp [h]

theorem underway_evict (m : Memo κ ρ) : underway m.evict.entries = underway m.entries := by
  unfold evict
  cases m.capacity with
  | none => rfl
  | some capacity => exact underway_dropSettled _ _

theorem size_evict_le {capacity : Nat} (h : m.capacity = some capacity) :
    m.evict.size ≤ max capacity (underway m.entries).length := by
  have := length_dropSettled_le (m.entries.length - capacity) m.entries
  simp only [evict, h, size]
  omega

variable [BEq κ]

/-- What a request finds moves to the recent end, and no other entry comes in. -/
theorem entries_of_found {key : κ} {e : MemoEntry κ ρ} (h : m.find? key = some e) :
    (m.request key).1.entries = m.entries.filter (fun f => !(f.key == key)) ++ [e] := by
  simp only [request, h]

theorem request_subperm {key : κ} {e : MemoEntry κ ρ} (h : m.find? key = some e) :
    (m.request key).1.entries.Subperm m.entries := by
  rw [entries_of_found h]
  have hsplit : (m.entries.filter (fun f => !(f.key == key)) ++ m.entries.filter fun f => f.key == key).Subperm
      m.entries := (List.perm_append_comm.trans (List.filter_append_perm _ _)).subperm
  have hfound : [e].Subperm (m.entries.filter fun f => f.key == key) :=
    List.singleton_subperm_iff.mpr
      (List.mem_filter.mpr ⟨List.mem_of_find?_eq_some h, by simpa using List.find?_some h⟩)
  exact ((List.Subperm.refl _).append hfound).trans hsplit

/-- What is not found is put in at the recent end. -/
theorem request_of_unknown {key : κ} (h : m.find? key = none) :
    m.request key = (evict { m with entries := m.entries ++ [⟨key, none⟩], misses := m.misses + 1 }, .fresh) := by
  simp only [request, h]

theorem underway_of_unknown {key : κ} (h : m.find? key = none) :
    underway (m.request key).1.entries = underway m.entries ++ [⟨key, none⟩] := by
  rw [request_of_unknown h, underway_evict, underway_append]
  rfl

theorem size_of_unknown {key : κ} {capacity : Nat} (h : m.find? key = none) (hcapacity : m.capacity = some capacity) :
    (m.request key).1.size ≤ max capacity ((underway m.entries).length + 1) := by
  rw [request_of_unknown h]
  refine le_trans (size_evict_le hcapacity) (le_of_eq ?_)
  rw [underway_append, List.length_append]
  rfl

theorem capacity_request (m : Memo κ ρ) (key : κ) : (m.request key).1.capacity = m.capacity := by
  cases h : m.find? key with
  | none => rw [request_of_unknown h, capacity_evict]
  | some e => simp only [request, h]

@[simp] theorem capacity_settle (m : Memo κ ρ) (key : κ) (r : ρ) (keep : Bool) :
    (m.settle key r keep).capacity = m.capacity := by
  cases keep <;> rfl

theorem size_settle_le (m : Memo κ ρ) (key : κ) (r : ρ) (keep : Bool) : (m.settle key r keep).size ≤ m.size := by
  cases keep with
  | true => exact (List.length_map _).le
  | false => exact List.length_filter_le _ _

theorem underway_settle (m : Memo κ ρ) (key : κ) (r : ρ) (keep : Bool) :
    underway (m.settle key r keep).entries = (underway m.entries).filter fun e => !(e.key == key) := by
  cases keep with
  | false =>
    simp only [underway, settle, Bool.false_eq_true, if_false, List.filter_filter]
    exact List.filter_congr fun e _ => Bool.and_comm _ _
  | true =>
    simp only [underway, settle, if_true]
    induction m.entries with
    | nil => rfl
    | cons e es ih => cases hk : e.key == key <;> cases ho : e.outcome <;> simp [hk, ho, ih]

end Entries

/-- What comes of a memo that may hold so many entries, while at most so many more are under way than at first. -/
structure Within (N burden : Nat) (m m' : ValueMemo) : Prop where
  capacity : m'.capacity = m.capacity
  underway : (underway m'.entries).Subperm (underway m.entries)
  size : m'.size ≤ max m.size (max N ((Memo.underway m.entries).length + burden))

section Within

variable {N d d' : Nat} {m m' m'' : ValueMemo} {key : Value} {work : ValueMemo → Computed} {depth : ValueMemo → Nat}

theorem Within.refl : Within N d m m := ⟨rfl, List.Subperm.refl _, le_max_left _ _⟩

theorem Within.trans (h : Within N d m m') (h' : Within N d' m' m'') : Within N (max d d') m m'' := by
  refine ⟨h'.capacity.trans h.capacity, h'.underway.trans h.underway, ?_⟩
  have := h.size
  have := h'.size
  have := h.underway.length_le
  omega

/-- A request that finds its key puts nothing in. -/
theorem Within.of_found {e : MemoEntry Value (Except Fault Value)} (hfind : m.find? key = some e)
    (h : Within N d (m.request key).1 m') : Within N d m m' := by
  have hsub := request_subperm hfind
  have hunderway : (Memo.underway (m.request key).1.entries).Subperm (Memo.underway m.entries) := hsub.filter _
  refine ⟨h.capacity.trans (capacity_request m key), h.underway.trans hunderway, ?_⟩
  have := h.size
  have := hunderway.length_le
  have : (m.request key).1.size ≤ m.size := hsub.length_le
  omega

/-- However many entries there were, a request that puts its key in leaves no more than the capacity and what is under
way during it allow. -/
theorem Within.size_of_fresh (hcapacity : m.capacity = some N) (hfind : m.find? key = none)
    (h : Within N d (m.request key).1 m') (outcome : Except Fault Value) (keep : Bool) :
    (m'.settle key outcome keep).size ≤ max N ((Memo.underway m.entries).length + (d + 1)) := by
  have hsize := h.size
  have := size_of_unknown hfind hcapacity
  have := size_settle_le m' key outcome keep
  rw [underway_of_unknown hfind, List.length_append, List.length_singleton] at hsize
  omega

/-- A request that puts its key in has one entry more under way, until the entry gets its outcome or is given up. -/
theorem Within.of_fresh (hcapacity : m.capacity = some N) (hkey : (key == key) = true) (hfind : m.find? key = none)
    (h : Within N d (m.request key).1 m') (outcome : Except Fault Value) (keep : Bool) :
    Within N (d + 1) m (m'.settle key outcome keep) := by
  refine ⟨?_, ?_, (h.size_of_fresh hcapacity hfind outcome keep).trans (le_max_right _ _)⟩
  · rw [capacity_settle, h.capacity, capacity_request]
  · have hunderway := h.underway.filter fun e => !(e.key == key)
    rw [underway_of_unknown hfind, List.filter_append, List.filter_cons_of_neg (by simp [hkey]), List.filter_nil,
      List.append_nil] at hunderway
    rw [underway_settle]
    exact hunderway.trans List.filter_sublist.subperm

theorem obtain_of_unknown (keepResult : Bool) (hkey : key.changeable? = none) (hfind : m.find? key = none) :
    Memo.obtain key keepResult work m =
      let c := work (m.request key).1
      { c with memo := c.memo.settle key c.outcome (keeps keepResult c.outcome) } := by
  simp only [Memo.obtain, hkey, Option.isSome_none, Bool.false_eq_true, if_false, request_of_unknown hfind]

theorem burden_of_unknown (hkey : key.changeable? = none) (hfind : m.find? key = none) :
    burden key depth m = depth (m.request key).1 + 1 := by
  simp only [burden, hkey, Option.isSome_none, Bool.false_eq_true, if_false, request_of_unknown hfind]

/-- Work keeps within the bounds when a memo of the capacity comes out of it so. -/
def Bounded (N : Nat) (work : ValueMemo → Computed) (depth : ValueMemo → Nat) : Prop :=
  ∀ m : ValueMemo, m.capacity = some N → Within N (depth m) m (work m).memo

theorem Bounded.obtain (h : Bounded N work depth) (key : Value) (keepResult : Bool) (hcapacity : m.capacity = some N) :
    Within N (burden key depth m) m (Memo.obtain key keepResult work m).memo := by
  cases hkey : key.changeable? with
  | some kind =>
    simp only [Memo.obtain, burden, hkey, Option.isSome_some, if_true]
    exact h m hcapacity
  | none =>
    have hrun := h (m.request key).1 ((capacity_request m key).trans hcapacity)
    cases hfind : m.find? key with
    | none =>
      rw [obtain_of_unknown keepResult hkey hfind, burden_of_unknown hkey hfind]
      exact hrun.of_fresh hcapacity (Value.same_self hkey) hfind _ _
    | some e =>
      simp only [Memo.obtain, burden, hkey, Option.isSome_none, Bool.false_eq_true, if_false]
      cases ho : e.outcome with
      | some r =>
        have hfound := Within.of_found hfind (Within.refl (N := N) (d := 0))
        simp only [request, hfind, ho] at hfound ⊢
        exact hfound
      | none =>
        have hfound := Within.of_found hfind hrun
        simp only [request, hfind, ho] at hfound ⊢
        exact hfound

/-- However deep its requests go, a job keeps within the bounds. -/
theorem bounded_run (job : Job) : Bounded N job.run job.depth := by
  induction job with
  | done outcome => exact fun m _ => Within.refl
  | request key cacheIf job next ih ihnext =>
    intro m hcapacity
    have hinner : Within N _ m (serve key cacheIf job.run m).memo := ih.obtain key _ hcapacity
    exact hinner.trans (ihnext _ _ (hinner.capacity.trans hcapacity))

theorem Within.use (use : Use) (hcapacity : m.capacity = some N) : Within N (use.depth m) m (use.memo m) := by
  cases use with
  | get key cacheIf job => exact (bounded_run job).obtain key _ hcapacity
  | holds key => exact Within.refl
  | clear => exact ⟨rfl, List.nil_subperm, Nat.zero_le _⟩

theorem Within.after (uses : List Use) (hcapacity : m.capacity = some N) :
    Within N (m.depth uses) m (m.after uses) := by
  induction uses generalizing m with
  | nil => exact Within.refl
  | cons use uses ih =>
    have huse := Within.use use hcapacity
    exact huse.trans (ih (huse.capacity.trans hcapacity))

end Within

/-- A new memo has a positive capacity and no entries. -/
theorem of_checked {m : ValueMemo} {n : Int} (hm : checked (some n) = .ok m) : m = empty (some n.toNat) ∧ 0 < n := by
  simp only [checked] at hm
  split_ifs at hm with hn
  exact ⟨(Except.ok.inj hm).symm, by omega⟩

theorem find?_of_holds {m : ValueMemo} {key : Value} (hkey : key.changeable? = none) (h : m.holds key = false) :
    m.find? key = none := by
  rw [holds, hkey, Option.isNone_none, Bool.true_and, contains, List.any_eq_false] at h
  exact List.find?_eq_none.mpr h

/-- Between the uses of a memo no entry is under way, and there are no more entries than the capacity allows or than
were under way at once in one of the uses. What is more than the capacity goes when the next key is put in. -/
theorem size_after_nested {m : ValueMemo} {n : Int} (hm : checked (some n) = .ok m) (uses : List Use) :
    (m.after uses).size ≤ max n.toNat (m.depth uses) ∧ underway (m.after uses).entries = [] ∧
      ∀ key cacheIf job, key.changeable? = none → (m.after uses).holds key = false →
        ((Use.get key cacheIf job).memo (m.after uses)).size ≤
          max n.toNat ((Use.get key cacheIf job).depth (m.after uses)) := by
  obtain ⟨rfl, -⟩ := of_checked hm
  have hwithin := Within.after (N := n.toNat) uses (m := empty (some n.toNat)) rfl
  have hopen : underway ((empty (some n.toNat)).after uses).entries = [] :=
    List.subperm_nil.mp hwithin.underway
  refine ⟨?_, hopen, fun key cacheIf job hkey hholds => ?_⟩
  · have hsize := hwithin.size
    rw [show underway (empty (some n.toNat)).entries = [] from rfl] at hsize
    simpa [size, empty] using hsize
  · have hcapacity := hwithin.capacity
    have hfind := find?_of_holds hkey hholds
    have hrun := bounded_run job _ ((capacity_request _ key).trans hcapacity)
    simp only [Use.memo, Use.depth, serve]
    rw [obtain_of_unknown _ hkey hfind, burden_of_unknown hkey hfind]
    simpa [hopen] using hrun.size_of_fresh hcapacity hfind _ _

/-- A request whose computation makes no request. -/
def Use.plain (key : String) : Use := .get (.string key) (fun _ => true) (.done (.ok (.bool true)))

/-- A request whose computation requests another key. -/
def Use.twofold (key other : String) : Use :=
  .get (.string key) (fun _ => true) (Computation.nested (.string other) (.give (.bool true))).job

/-- A memo for one entry that holds two, until the next key is put in. -/
theorem size_after_nested_two_keys :
    let m : ValueMemo := empty (some 1)
    (checked (some 1) = .ok m ∧ (m.after [.twofold "a" "b"]).holds (.string "c") = false) ∧
      (m.after [.twofold "a" "b"]).size = 2 ∧ (m.after [.twofold "a" "b"]).size ≤ max 1 (m.depth [.twofold "a" "b"]) ∧
      ((Use.plain "c").memo (m.after [.twofold "a" "b"])).size ≤ 1 := by
  have hholds : ((empty (some 1)).after [.twofold "a" "b"]).holds (.string "c") = false := rfl
  obtain ⟨hsize, -, hnext⟩ := size_after_nested (m := empty (some 1)) (n := 1) rfl [.twofold "a" "b"]
  exact ⟨⟨rfl, hholds⟩, rfl, hsize, hnext _ _ _ rfl hholds⟩

end Memo
end Schemata
