import Schemata.Proofs.Memo.Nesting
import Schemata.Proofs.Value.Hashable

/-! What a memo remembers when its computations make no requests: the keys that were requested last. Entries stand in
the order of their last requests, and what stands behind an entry was requested after it. -/
namespace Schemata.Memo

variable {N : Nat} {m : ValueMemo} {key : Value} {cacheIf : Value → Bool} {outcome : Except Fault Value}

namespace Use

/-- A use whose computation, if it has one, makes no request, and whose key can be a key. -/
def IsPlain : Use → Prop
  | .get key _ job => key.isHashable = true ∧ ∃ outcome, job = .done outcome
  | .holds key => key.isHashable = true
  | .clear => True

theorem depth_le_one {use : Use} (h : use.IsPlain) (m : ValueMemo) : use.depth m ≤ 1 := by
  cases use with
  | get key cacheIf job =>
    obtain ⟨-, outcome, rfl⟩ := h
    simp only [depth, burden, Job.depth]
    split_ifs
    · exact Nat.zero_le 1
    · rcases m.request key with ⟨m, _ | _ | _⟩ <;> simp
  | holds key => exact Nat.zero_le 1
  | clear => exact Nat.zero_le 1

end Use

theorem depth_le_one {uses : List Use} (h : ∀ use ∈ uses, use.IsPlain) (m : ValueMemo) : m.depth uses ≤ 1 := by
  induction uses generalizing m with
  | nil => exact Nat.zero_le 1
  | cons use uses ih =>
    rw [List.forall_mem_cons] at h
    exact max_le (Use.depth_le_one h.1 m) (ih h.2 _)

/-- No more entries than the capacity allows, each with its outcome, and no two under equal keys. -/
structure Orderly (N : Nat) (m : ValueMemo) : Prop where
  capacity : m.capacity = some N
  size : m.size ≤ N
  settled : ∀ e ∈ m.entries, e.outcome.isSome = true
  hashable : ∀ e ∈ m.entries, e.key.isHashable = true
  distinct : m.entries.Pairwise fun e f => e.key.same f.key = false

theorem orderly_empty (N : Nat) : Orderly N (empty (some N)) := 
  ⟨rfl, Nat.zero_le N, List.forall_mem_nil _, List.forall_mem_nil _, .nil⟩

section Drop

variable {κ ρ : Type} {es : List (MemoEntry κ ρ)}

/-- Of entries that all have an outcome the first ones are dropped. -/
theorem dropSettled_append {excess : Nat} (h : ∀ e ∈ es, e.outcome.isSome = true) (hexcess : excess ≤ es.length)
    (fs : List (MemoEntry κ ρ)) : dropSettled excess (es ++ fs) = es.drop excess ++ fs := by
  induction es generalizing excess with
  | nil =>
    obtain rfl := Nat.le_zero.mp hexcess
    cases fs <;> rfl
  | cons e es ih =>
    rw [List.forall_mem_cons] at h
    cases excess with
    | zero => rfl
    | succ excess =>
      rw [List.cons_append, dropSettled, if_pos h.1, ih h.2 (Nat.le_of_succ_le_succ hexcess), List.drop_succ_cons]

end Drop

/-- What is found with its outcome is answered without a computation. -/
theorem serve_of_known {e : MemoEntry Value (Except Fault Value)} {r : Except Fault Value}
    (hkey : key.changeable? = none) (hfind : m.find? key = some e) (houtcome : e.outcome = some r)
    (work : ValueMemo → Computed) :
    serve key cacheIf work m = ⟨known key r, (m.request key).1, 0⟩ := by
  simp only [serve, obtain, hkey, Option.isSome_none, Bool.false_eq_true, if_false, request, hfind, houtcome]

/-- A computation without requests, for a key without an entry: the first entry gives way if there are as many as the
capacity allows, and the new one stands last if its outcome is kept. -/
theorem serve_of_unknown (h : Orderly N m) (hN : 0 < N) (hkey : key.changeable? = none) (hfind : m.find? key = none) :
    let c := serve key cacheIf (Job.done outcome).run m
    c.outcome = outcome ∧ c.memo.entries = m.entries.drop (m.size + 1 - N) ++
      if keeps (passes cacheIf outcome) outcome then [⟨key, some outcome⟩] else [] := by
  have hrequest : (m.request key).1.entries = m.entries.drop (m.size + 1 - N) ++ [⟨key, none⟩] := by
    simp only [request_of_unknown hfind, evict, h.capacity, List.length_append, List.length_singleton]
    exact dropSettled_append h.settled (by have := h.size; unfold size at *; omega) _
  have hothers : ∀ e ∈ m.entries.drop (m.size + 1 - N), (e.key == key) = false := fun e he =>
    Bool.not_eq_true _ ▸ List.find?_eq_none.mp hfind e (List.mem_of_mem_drop he)
  have hself : (key == key) = true := Value.same_self hkey
  simp only [serve, obtain_of_unknown _ hkey hfind, Job.run, true_and]
  cases keeps (passes cacheIf outcome) outcome with
  | true =>
    simp only [settle, hrequest, List.map_append, if_true, List.map_singleton, hself]
    congr 1
    refine (List.map_congr_left fun e he => if_neg ?_).trans (List.map_id _)
    rw [hothers e he]
    exact Bool.false_ne_true
  | false =>
    simp only [settle, hrequest, List.filter_append, Bool.false_eq_true, if_false]
    rw [List.filter_eq_self.mpr fun e he => by simp [hothers e he], List.filter_cons_of_neg (by simp [hself]),
      List.filter_nil]

theorem settled_iff {κ ρ : Type} {es : List (MemoEntry κ ρ)} :
    (∀ e ∈ es, e.outcome.isSome = true) ↔ underway es = [] := by
  simp [underway, List.filter_eq_nil_iff, Option.isSome_iff_ne_none]

/-- What a plain request leaves: entries that were there, and at the end one of its key, unless the outcome is not
kept. -/
theorem Orderly.entries (h : Orderly N m) (hN : 0 < N) (hkey : key.isHashable = true) (cacheIf : Value → Bool)
    (outcome : Except Fault Value) :
    let c := serve key cacheIf (Job.done outcome).run m
    (∃ e r, (e ∈ m.entries ∧ e.key.same key = true) ∧ (e.outcome = some r ∧ c.outcome = known key r) ∧
      c.memo.entries = (m.entries.filter fun f => !f.key.same key) ++ [e]) ∨
    ((∀ e ∈ m.entries, e.key.same key = false) ∧ c.outcome = outcome ∧
      c.memo.entries = m.entries.drop (m.size + 1 - N) ++
        if keeps (passes cacheIf outcome) outcome then [⟨key, some outcome⟩] else []) := by
  have hchange := Value.changeable?_of_hashable hkey
  cases hfind : m.find? key with
  | some e =>
    have he := List.mem_of_find?_eq_some hfind
    obtain ⟨r, hr⟩ := Option.isSome_iff_exists.mp (h.settled e he)
    refine Or.inl ⟨e, r, ⟨he, ?_⟩, ⟨hr, ?_⟩, ?_⟩
    · have hequal := List.find?_some hfind
      exact hequal
    · rw [serve_of_known hchange hfind hr]
    · rw [serve_of_known hchange hfind hr]
      exact entries_of_found hfind
  | none =>
    refine Or.inr ⟨fun e he => ?_, serve_of_unknown h hN hchange hfind⟩
    exact Bool.not_eq_true _ ▸ List.find?_eq_none.mp hfind e he

theorem Orderly.use (h : Orderly N m) (hN : 0 < N) {use : Use} (huse : use.IsPlain) : Orderly N (use.memo m) := by
  have hwithin := Within.use use h.capacity
  have hopen := settled_iff.mp h.settled
  have hsize := hwithin.size
  have := h.size
  have := Use.depth_le_one huse m
  rw [hopen, List.length_nil] at hsize
  have hkeys : (∀ e ∈ (use.memo m).entries, e.key.isHashable = true) ∧
      (use.memo m).entries.Pairwise fun e f => e.key.same f.key = false := by
    cases use with
    | holds key => exact ⟨h.hashable, h.distinct⟩
    | clear => exact ⟨List.forall_mem_nil _, .nil⟩
    | get key cacheIf job =>
      obtain ⟨hkey, outcome, rfl⟩ := huse
      rcases h.entries hN hkey cacheIf outcome with ⟨e, r, ⟨he, hsame⟩, -, hentries⟩ | ⟨hothers, -, hentries⟩ <;>
        simp only [Use.memo, hentries, List.forall_mem_append, List.pairwise_append]
      · refine ⟨⟨fun f hf => h.hashable f (List.mem_of_mem_filter hf), by simpa using h.hashable e he⟩,
          h.distinct.filter _, List.pairwise_singleton .., fun f hf g hg => ?_⟩
        obtain rfl := List.mem_singleton.mp hg
        obtain ⟨hf, hother⟩ := List.mem_filter.mp hf
        by_contra hfg
        have := Value.same_trans_of_hashable (h.hashable f hf) (h.hashable g he) hkey (by simpa using hfg) hsame
        simp [this] at hother
      · refine ⟨⟨fun f hf => h.hashable f (List.mem_of_mem_drop hf), ?_⟩, h.distinct.sublist (List.drop_sublist ..), ?_,
          fun f hf g hg => ?_⟩
        · split_ifs <;> simp [hkey]
        · split_ifs <;> simp
        · split_ifs at hg
          · obtain rfl := List.mem_singleton.mp hg
            exact hothers f (List.mem_of_mem_drop hf)
          · exact absurd hg (List.not_mem_nil)
  refine ⟨hwithin.capacity.trans h.capacity, by omega, settled_iff.mpr ?_, hkeys.1, hkeys.2⟩
  exact List.subperm_nil.mp (hopen ▸ hwithin.underway)

theorem Orderly.after (h : Orderly N m) (hN : 0 < N) {uses : List Use} (huses : ∀ use ∈ uses, use.IsPlain) :
    Orderly N (m.after uses) := by
  induction uses generalizing m with
  | nil => exact h
  | cons use uses ih =>
    rw [List.forall_mem_cons] at huses
    exact ih (h.use hN huses.1) huses.2

/-- The memo has an outcome under the key, and all entries behind it have keys that equal some of the others. -/
def Remembers (m : ValueMemo) (key : Value) (outcome : Except Fault Value) (others : List Value) : Prop :=
  ∃ older e newer, m.entries = older ++ e :: newer ∧ e.key.same key = true ∧ e.outcome = some outcome ∧
    ∀ f ∈ newer, ∃ other ∈ others, other.same f.key = true

/-- Of entries under different keys one at most has a key that equals the other. -/
theorem length_le_one_of_same {es : List (MemoEntry Value (Except Fault Value))} {other : Value}
    (hhashable : ∀ e ∈ es, e.key.isHashable = true) (hdistinct : es.Pairwise fun e f => e.key.same f.key = false)
    (hsame : ∀ e ∈ es, other.same e.key = true) : es.length ≤ 1 := by
  match es with
  | [] => exact Nat.zero_le 1
  | [_] => exact le_refl 1
  | e :: f :: _ =>
    have hne := (List.pairwise_cons.mp hdistinct).1 f (by simp)
    have := Value.same_euclidean (hhashable e (by simp)) (hhashable f (by simp)) (hsame e (by simp)) (hsame f (by simp))
    exact absurd this (by simp [hne])

/-- No more entries have keys that equal some of the others than there are others. -/
theorem length_le_of_others {es : List (MemoEntry Value (Except Fault Value))} {others : List Value}
    (hhashable : ∀ e ∈ es, e.key.isHashable = true) (hdistinct : es.Pairwise fun e f => e.key.same f.key = false)
    (hothers : ∀ e ∈ es, ∃ other ∈ others, other.same e.key = true) : es.length ≤ others.length := by
  induction others generalizing es with
  | nil =>
    cases es with
    | nil => rfl
    | cons e es => simpa using hothers e (List.mem_cons_self ..)
  | cons other others ih =>
    have hone := length_le_one_of_same (fun e he => hhashable e (List.mem_of_mem_filter he))
      (hdistinct.filter fun e => other.same e.key) fun e he => (List.mem_filter.mp he).2
    have hrest := @ih (es.filter fun e => !other.same e.key)
      (fun e he => hhashable e (List.mem_of_mem_filter he)) (hdistinct.filter _) fun e he => by
        obtain ⟨he, hne⟩ := List.mem_filter.mp he
        obtain ⟨o, ho, hsame⟩ := hothers e he
        rcases List.mem_cons.mp ho with rfl | ho
        · simp [hsame] at hne
        · exact ⟨o, ho, hsame⟩
    have hsplit := List.length_eq_length_filter_add (l := es) fun e => other.same e.key
    rw [List.length_cons]
    omega

namespace Use

/-- The use does not clear the memo, and it does not request the key, but at most a key that equals some of the
others. -/
def Spares (key : Value) (others : List Value) : Use → Prop
  | .get other _ _ => other.same key = false ∧ ∃ o ∈ others, o.same other = true
  | .holds _ => True
  | .clear => False

end Use

section Remembers

variable {others : List Value} {uses : List Use}

/-- Entries of requested keys are fewer than the keys, while one of the keys has no entry. -/
theorem Orderly.length_lt (h : Orderly N m) {es : List (MemoEntry Value (Except Fault Value))} {other : Value}
    (hes : es.Sublist m.entries) (hothers : ∀ e ∈ es, ∃ o ∈ others, o.same e.key = true)
    (hother : other.isHashable = true) (hnone : ∀ e ∈ m.entries, e.key.same other = false)
    (hrequested : ∃ o ∈ others, o.same other = true) : es.length < others.length := by
  have hlength := @length_le_of_others (es ++ [⟨other, none⟩]) others ?_ ?_ ?_
  · rw [List.length_append, List.length_singleton] at hlength
    omega
  · simp only [List.forall_mem_append, List.forall_mem_singleton]
    exact ⟨fun e he => h.hashable e (hes.subset he), hother⟩
  · refine List.pairwise_append.mpr ⟨h.distinct.sublist hes, List.pairwise_singleton .., fun e he k hk => ?_⟩
    obtain rfl := List.mem_singleton.mp hk
    exact hnone e (hes.subset he)
  · simp only [List.forall_mem_append, List.forall_mem_singleton]
    exact ⟨hothers, hrequested⟩

/-- While fewer others than the capacity are requested, an entry has enough entries before it to give way. -/
theorem Remembers.use (h : Remembers m key outcome others) (horder : Orderly N m) (hothers : others.length < N)
    (hhashable : ∀ o ∈ others, o.isHashable = true) (hkey : key.isHashable = true) {use : Use} (huse : use.IsPlain)
    (hspares : use.Spares key others) : Remembers (use.memo m) key outcome others := by
  obtain ⟨older, e, newer, hentries, hsame, houtcome, hnewer⟩ := h
  cases use with
  | clear => exact hspares.elim
  | holds _ => exact ⟨older, e, newer, hentries, hsame, houtcome, hnewer⟩
  | get other cacheIf job =>
    obtain ⟨hother, outcome', rfl⟩ := huse
    obtain ⟨hne, o, ho, hoother⟩ := hspares
    rcases horder.entries (by omega) hother cacheIf outcome' with
      ⟨f, r, ⟨hf, hfother⟩, -, hafter⟩ | ⟨hnone, -, hafter⟩
    · -- The entry is not the one that moves behind all others.
      have hstays : e.key.same other = false := by
        by_contra hcon
        simp [Value.same_euclidean hother hkey (by simpa using hcon) hsame] at hne
      have hfo : o.same f.key = true := Value.same_trans_of_hashable (hhashable o ho) hother (horder.hashable f hf)
        hoother (Value.same_symm_of_hashable (horder.hashable f hf) hother hfother)
      refine ⟨older.filter fun f => !f.key.same other, e, (newer.filter fun f => !f.key.same other) ++ [f], ?_, hsame,
        houtcome, ?_⟩
      · rw [Use.memo, hafter, hentries]
        simp [hstays]
      · simp only [List.forall_mem_append, List.forall_mem_singleton]
        exact ⟨fun g hg => hnewer g (List.mem_of_mem_filter hg), o, ho, hfo⟩
    · have hsublist : newer.Sublist m.entries :=
        hentries ▸ (List.sublist_cons_self ..).trans (List.sublist_append_right ..)
      have hroom := horder.length_lt hsublist hnewer hother hnone ⟨o, ho, hoother⟩
      have hdrop : m.size + 1 - N ≤ older.length := by
        simp only [size, hentries, List.length_append, List.length_cons]
        omega
      refine ⟨older.drop (m.size + 1 - N), e,
        newer ++ if keeps (passes cacheIf outcome') outcome' then [⟨other, some outcome'⟩] else [], ?_, hsame, houtcome,
        ?_⟩
      · rw [Use.memo, hafter, hentries, List.drop_append_of_le_length hdrop, List.append_assoc, List.cons_append]
      · simp only [List.forall_mem_append]
        refine ⟨hnewer, fun g hg => ?_⟩
        split_ifs at hg
        · obtain rfl := List.mem_singleton.mp hg
          exact ⟨o, ho, hoother⟩
        · exact absurd hg List.not_mem_nil

theorem Remembers.after (h : Remembers m key outcome others) (horder : Orderly N m) (hothers : others.length < N)
    (hhashable : ∀ o ∈ others, o.isHashable = true) (hkey : key.isHashable = true)
    (huses : ∀ use ∈ uses, use.IsPlain ∧ use.Spares key others) : Remembers (m.after uses) key outcome others := by
  induction uses generalizing m with
  | nil => exact h
  | cons use uses ih =>
    rw [List.forall_mem_cons] at huses
    exact ih (h.use horder hothers hhashable hkey huses.1.1 huses.1.2) (horder.use (by omega) huses.1.1) huses.2

/-- A request that ends with an outcome that is kept is remembered by it. -/
theorem Orderly.remembers (h : Orderly N m) (others : List Value) (hN : 0 < N) (hkey : key.isHashable = true)
    (hkept : let c := serve key cacheIf (Job.done outcome).run m
      keeps (passes cacheIf c.outcome) c.outcome = true) :
    let c := serve key cacheIf (Job.done outcome).run m
    Remembers c.memo key c.outcome others := by
  rcases h.entries hN hkey cacheIf outcome with
    ⟨e, r, ⟨he, hsame⟩, ⟨hr, hknown⟩, hentries⟩ | ⟨-, houtcome, hentries⟩
  · refine ⟨_, e, [], hentries, hsame, ?_, List.forall_mem_nil _⟩
    dsimp only at hkept ⊢
    rw [hknown] at hkept ⊢
    -- What is raised in place of an outcome is not kept.
    unfold known at hkept ⊢
    split at hkept
    · exact absurd hkept Bool.false_ne_true
    · exact hr
  · dsimp only at hkept ⊢
    rw [houtcome] at hkept ⊢
    exact ⟨_, ⟨key, some outcome⟩, [], by rw [hentries, if_pos hkept], Value.same_self_of_hashable hkey, rfl,
      List.forall_mem_nil _⟩

/-- What is remembered is found under every equal key. -/
theorem Remembers.find? (h : Remembers m key outcome others) (horder : Orderly N m) {key' : Value}
    (hkey : key.isHashable = true) (hkey' : key'.isHashable = true) (hsame : key.same key' = true) :
    ∃ e, m.find? key' = some e ∧ e.outcome = some outcome := by
  obtain ⟨older, e, newer, hentries, he, houtcome, -⟩ := h
  have hmem : e ∈ m.entries := by simp [hentries]
  have hequal : e.key.same key' = true :=
    Value.same_trans_of_hashable (horder.hashable e hmem) hkey hkey' he hsame
  have hdistinct := horder.distinct
  rw [hentries, List.pairwise_append] at hdistinct
  have holder : older.find? (fun f => f.key == key') = none := by
    refine List.find?_eq_none.mpr fun f hf hfound => ?_
    have hf' : f ∈ m.entries := by simp [hentries, hf]
    have := Value.same_trans_of_hashable (horder.hashable f hf') hkey' (horder.hashable e hmem) hfound
      (Value.same_symm_of_hashable (horder.hashable e hmem) hkey' hequal)
    simp [hdistinct.2.2 f hf e (by simp)] at this
  refine ⟨e, ?_, houtcome⟩
  unfold Memo.find?
  rw [hentries, List.find?_append, holder, Option.none_or]
  exact List.find?_cons_of_pos hequal

end Remembers

/-- The memo never has more entries than its capacity allows. A key whose request ended with an outcome that is kept
still has its entry after uses that requested fewer other keys than the capacity. The next request, of this or an equal
key, runs no computation and gives the outcome; only under an empty tuple it raises an error in its place. -/
theorem remembers_recent {m : ValueMemo} {n : Int} (hm : checked (some n) = .ok m) (before : List Use)
    (hbefore : ∀ use ∈ before, use.IsPlain) :
    (m.after before).size ≤ n.toNat ∧
      ∀ key cacheIf outcome between others, key.isHashable = true →
        let c := serve key cacheIf (Job.done outcome).run (m.after before)
        keeps (passes cacheIf c.outcome) c.outcome = true →
        (∀ use ∈ between, use.IsPlain ∧ use.Spares key others) → (∀ o ∈ others, o.isHashable = true) →
        others.length < n.toNat → ∀ key', key'.isHashable = true → key.same key' = true →
          (c.memo.after between).holds key' = true ∧ ∀ cacheIf' (job : Job),
            let next := serve key' cacheIf' job.run (c.memo.after between)
            next.calls = 0 ∧ ((∀ label, key' ≠ .tuple label []) → next.outcome = c.outcome) ∧
              ((∃ label, key' = .tuple label []) → next.outcome = .error (.raised noFirstItem)) := by
  obtain ⟨rfl, hn⟩ := of_checked hm
  have hN : 0 < n.toNat := by omega
  have horder := (orderly_empty n.toNat).after hN hbefore
  refine ⟨horder.size, ?_⟩
  intro key cacheIf outcome between others hkey c hkept hbetween hothers hlength key' hkey' hsame
  have hplain : (Use.get key cacheIf (.done outcome)).IsPlain := ⟨hkey, outcome, rfl⟩
  have hc : Orderly n.toNat c.memo := horder.use hN hplain
  have hlast := hc.after hN fun use huse => (hbetween use huse).1
  have hremembers := (horder.remembers others hN hkey hkept).after hc hlength hothers hkey hbetween
  obtain ⟨e, hfind, houtcome⟩ := hremembers.find? hlast hkey hkey' hsame
  have hchange := Value.changeable?_of_hashable hkey'
  refine ⟨?_, fun cacheIf' job => ?_⟩
  · rw [holds, hchange, contains, Option.isNone_none, Bool.true_and]
    exact List.any_eq_true.mpr ⟨e, List.mem_of_find?_eq_some hfind, by simpa using List.find?_some hfind⟩
  · dsimp only
    rw [serve_of_known hchange hfind houtcome]
    refine ⟨rfl, fun hne => ?_, ?_⟩
    · unfold known
      split
      · exact absurd rfl (hne _)
      · rfl
    · rintro ⟨label, rfl⟩
      rfl

/-- A key among two, after requests that push the oldest entry out. -/
theorem remembers_recent_of_two :
    let m : ValueMemo := empty (some 2)
    let c := serve (.bool true) (fun _ => true) (Job.done (.ok (.string "kept"))).run (m.after [.plain "old"])
    let t := c.memo.after [.plain "new", .holds (.string "old"), .plain "new"]
    (checked (some 2) = .ok m ∧ t.holds (.string "old") = false) ∧ (m.after [.plain "old"]).size ≤ 2 ∧
      t.holds (.number (.int 1)) = true ∧
      (serve (.number (.int 1)) (fun _ => true) (Job.done (.ok (.bool false))).run t).calls = 0 ∧
      (serve (.number (.int 1)) (fun _ => true) (Job.done (.ok (.bool false))).run t).outcome =
        .ok (.string "kept") := by
  have hplain : ∀ key, (Use.plain key).IsPlain := fun key => ⟨rfl, _, rfl⟩
  obtain ⟨hsize, hrecent⟩ := remembers_recent (m := empty (some 2)) (n := 2) rfl [.plain "old"]
    (List.forall_mem_singleton.mpr (hplain "old"))
  obtain ⟨hholds, hnext⟩ := hrecent (.bool true) (fun _ => true) (.ok (.string "kept"))
    [.plain "new", .holds (.string "old"), .plain "new"] [.string "new"] rfl rfl
    (by
      have hnew : (Use.plain "new").IsPlain ∧ (Use.plain "new").Spares (.bool true) [.string "new"] :=
        ⟨hplain "new", rfl, .string "new", by simp, rfl⟩
      simp only [List.forall_mem_cons, List.not_mem_nil, false_implies, implies_true, and_true]
      exact ⟨hnew, ⟨rfl, trivial⟩, hnew⟩)
    (List.forall_mem_singleton.mpr rfl) (by decide) (.number (.int 1)) rfl rfl
  obtain ⟨hcalls, houtcome, -⟩ := hnext (fun _ => true) (.done (.ok (.bool false)))
  exact ⟨⟨rfl, rfl⟩, hsize, hholds, hcalls, houtcome (by simp)⟩

end Schemata.Memo
