import Schemata.Proofs.Algebra.ObjectMeets
import Schemata.Proofs.Algebra.PlainMeets
import Schemata.Proofs.Algebra.TupleMeets

/-! The intersection of schemas admits nothing new, and on schemas of keywords, scalar literals, bounded keywords,
unions, objects and tuples without variadic elements it loses nothing. The proof goes by the fuel, with one case
for every pair of forms. -/
namespace Schemata
namespace Schema

/-- A single node of the schemas whose intersections are exact. -/
def Structural : Schema → Prop
  | .constrained s _ => ∃ k, s = .keyword k
  | .intersection _ => False
  | .ref _ => False
  | .tuple es => ∀ e ∈ es, e.role = .leading ∨ e.role = .optional
  | _ => True

/-- A single node of the schemas that meet by their forms, with bounds over keywords only. -/
def Elementary : Schema → Prop
  | .constrained s _ => ∃ k, s = .keyword k
  | .intersection _ => False
  | .ref _ => False
  | _ => True

theorem Structural.elementary {s : Schema} (h : s.Structural) : s.Elementary := by
  cases s with
  | tuple es => trivial
  | _ => exact h

/-- Schemas of the fragment, of the exact part where the intersection is exact. -/
structure Admissible (d : Dialect) (exactly : Prop) (s : Schema) : Prop where
  fits : s.Every (Fits d)
  structural : exactly → s.Every Structural

namespace Admissible

variable {d : Dialect} {exactly : Prop} {s t : Schema}

theorem part (h : Admissible d exactly s) (ht : t ∈ s.parts) : Admissible d exactly t :=
  ⟨h.fits.part ht, fun he => (h.structural he).part ht⟩

theorem orderly (h : Admissible d exactly s) (he : exactly) : s.Orderly d := by
  refine h.fits.and ((h.structural he).mono fun t ht => ?_)
  cases t with
  | constrained s cs =>
    obtain ⟨k, rfl⟩ := ht
    exact .keyword k
  | intersection ms => exact ht.elim
  | tuple es => trivial
  | _ => exact ht

theorem split (h : Admissible d exactly s) : Admissible d exactly s.split.1 := by
  cases s with
  | constrained t cs => exact h.part (show t ∈ [t] from List.mem_singleton.mpr rfl)
  | _ => exact h

end Admissible

theorem split_size_le (s : Schema) : s.split.1.size ≤ s.size := by
  cases s <;> simp [split, size]

/-- One of two schemas is a keyword, and the other a keyword, an object or a tuple. -/
def CorePair (a b : Schema) : Prop := ((∃ k, a = .keyword k) ∧ b.Core) ∨ (a.Core ∧ ∃ k, b = .keyword k)

section Cases

variable {env : Env} {d : Dialect} {exactly : Prop} {a b c : Schema} {meet : Schema → Schema → Compose Schema}

theorem Smaller.meets (h : Smaller env a b c) (ha : Admissible d exactly a) (hb : Admissible d exactly b) :
    Meets env d exactly a b c := by
  rcases h with ⟨rfl, h⟩ | ⟨rfl, h⟩
  · exact Meets.left ha.fits ha.orderly fun v _ => h v
  · exact (Meets.left hb.fits hb.orderly fun v _ => h v).symm

theorem Disjoint.apart {e : Fault} (h : Disjoint env a b e) : Apart env exactly a b e :=
  fun _ => ⟨h.1, fun v _ _ => h.2.2 v⟩

theorem CorePair.core (h : CorePair a b) : a.Core ∧ b.Core := by
  rcases h with ⟨hk, hb⟩ | ⟨ha, hk⟩
  · exact ⟨Or.inl hk, hb⟩
  · exact ⟨ha, Or.inl hk⟩

theorem meetPlain_core (h : CorePair a b) :
    (env.meetPlain meet a b).Yields (Smaller env a b) (Disjoint env a b) := by
  rcases h with ⟨⟨k, rfl⟩, ⟨l, rfl⟩ | hb⟩ | ⟨⟨k, rfl⟩ | ha, l, rfl⟩
  · exact meetKeywords k l
  · exact meetKeyword_structure k hb
  · exact meetKeywords k l
  · exact meetStructure_keyword l ha

theorem member_members {s : Schema} {v : Value} : (∀ t ∈ s.members, t.Member env true v) ↔ s.Member env true v := by
  cases s <;> simp [members]

theorem every_members {p : Schema → Prop} {s : Schema} (hs : s.Every p) : ∀ t ∈ s.members, t.Every p := by
  cases s with
  | intersection ms => exact fun t ht => hs.member ht
  | _ => simpa [members] using hs

/-- Conjunctions gather their members. -/
theorem meets_members (hd : d.lazy) (hno : ¬ exactly) (ha : a.Every (Fits d)) (hb : b.Every (Fits d)) :
    Meets env d exactly a b (.intersection (distinct (a.members ++ b.members))) := by
  have hall : ∀ s ∈ a.members ++ b.members, s.Every (Fits d) :=
    List.forall_mem_append.mpr ⟨every_members ha, every_members hb⟩
  refine Meets.conjunction hd (every_distinct hall) (fun he => absurd he hno) fun v => ?_
  rw [← member_members, ← member_members (s := b), ← List.forall_mem_append]
  constructor
  · intro h s hs
    obtain ⟨t, ht, rfl | hsame⟩ := distinct_covers hs
    · exact h _ ht
    · exact (member_of_same (hall t (mem_of_mem_distinct ht)) (hall s hs) hsame v).mp (h t ht)
  · exact fun h t ht => h t (mem_of_mem_distinct ht)

/-- Neither a reference nor a union: the schemas that meet by their forms. -/
def Direct (s : Schema) : Prop := s.isRef = false ∧ s.isUnion = false

/-- No shortcut settles the intersection of the two, and neither is a union or a reference. -/
structure Unsettled (a b : Schema) : Prop where
  different : ¬ a.same b = true
  known : a.isUnknown = false
  known' : b.isUnknown = false
  direct : a.Direct
  direct' : b.Direct

/-- One step of the intersection: the shortcuts, references, unions branch by branch, and all others by their
forms. -/
theorem meetWithin_forms {P : Schema → Prop} {Q : Fault → Prop} {fuel : Nat} {expanding : List (Schema × Schema)}
    (hsame : a.same b = true → P a) (hleft : a = unknown → P b) (hright : b = unknown → P a)
    (hnever : ¬ a.same b = true → a ≠ unknown → b ≠ unknown → a.isNever = true ∨ b.isNever = true →
      Q (.schema (.unsatisfiable a b .never)))
    (hrefs : a.isRef = true ∨ b.isRef = true → Compose.Yields (do
      a.hashable b
      if a.pairIn b expanding then pure (.intersection [a, b])
      else
        match ← env.behind? a, ← env.behind? b with
        | some s, some t => env.meetWithin fuel ((a, b) :: expanding) s t
        | _, _ => do
          Compose.defer
          pure (.intersection [a, b])) P Q)
    (hbranches : ∀ bs, a = .union bs → bs ≠ [] → b.isNever = false →
      (env.meetBranches (.union bs) b bs fun s => env.meetWithin fuel expanding s b).Yields P Q)
    (hbranches' : ∀ bs, b = .union bs → bs ≠ [] → a.isNever = false →
      (env.meetBranches (.union bs) a bs fun t => env.meetWithin fuel expanding a t).Yields P Q)
    (hplain : Unsettled a b → (env.meetPlain (env.meetWithin fuel expanding) a b).Yields P Q) :
    (env.meetWithin (fuel + 1) expanding a b).Yields P Q := by
  have full : ∀ {bs : List Schema}, (union bs).isNever = false → bs ≠ [] := by
    rintro bs h rfl
    simp [isNever] at h
  unfold Env.meetWithin
  dsimp only
  by_cases hab : a.same b = true
  · rw [if_pos hab]
    exact .pure (hsame hab)
  rw [if_neg hab]
  by_cases hua : a.isUnknown = true
  · rw [if_pos hua]
    exact .pure (hleft (eq_unknown hua))
  rw [if_neg hua]
  by_cases hub : b.isUnknown = true
  · rw [if_pos hub]
    exact .pure (hright (eq_unknown hub))
  rw [if_neg hub]
  by_cases hn : (a.isNever || b.isNever) = true
  · rw [if_pos hn]
    refine .throw (hnever hab ?_ ?_ (by simpa using hn))
    · rintro rfl
      exact hua rfl
    · rintro rfl
      exact hub rfl
  rw [if_neg hn]
  simp only [Bool.or_eq_true, not_or, Bool.not_eq_true] at hn
  by_cases hr : (a.isRef || b.isRef) = true
  · rw [if_pos hr]
    exact hrefs (by simpa using hr)
  rw [if_neg hr]
  simp only [Bool.or_eq_true, not_or, Bool.not_eq_true] at hr
  cases hau : a.isUnion with
  | true =>
    cases a <;> simp [isUnion] at hau
    exact hbranches _ rfl (full hn.1) hn.2
  | false =>
  cases hbu : b.isUnion with
  | true =>
    cases b <;> simp [isUnion] at hbu
    have := hbranches' _ rfl (full hn.2) hn.1
    cases a <;> first | exact this | simp [isUnion] at hau
  | false =>
    have := hplain ⟨hab, by simpa using hua, by simpa using hub, ⟨hr.1, hau⟩, ⟨hr.2, hbu⟩⟩
    cases a <;> cases b <;> first | exact this | simp [isUnion] at hau hbu

/-- Beside a constrained schema the bases are keywords, objects and tuples. -/
theorem core_split (h : a.Elementary) (hd : a.Direct) (hl : ∀ v, a ≠ .literal v) :
    a.split.1.Core ∧ (a.isConstrained = true → ∃ k, a.split.1 = .keyword k) := by
  cases a with
  | keyword k => exact ⟨Or.inl ⟨k, rfl⟩, fun h => by simp [isConstrained] at h⟩
  | literal v => exact absurd rfl (hl v)
  | constrained s cs =>
    obtain ⟨k, rfl⟩ := h
    exact ⟨Or.inl ⟨k, rfl⟩, fun _ => ⟨k, rfl⟩⟩
  | union bs => simp [Direct, isUnion] at hd
  | intersection ms => exact h.elim
  | ref r => exact h.elim
  | object o => exact ⟨Or.inr rfl, fun h => by simp [isConstrained] at h⟩
  | tuple es => exact ⟨Or.inr rfl, fun h => by simp [isConstrained] at h⟩

theorem split_size_lt (h : a.isConstrained = true) : a.split.1.size < a.size := by
  cases a <;> simp [isConstrained] at h
  simp [split, size]

theorem split_sizes_lt (h : a.isConstrained = true ∨ b.isConstrained = true) :
    a.split.1.size + b.split.1.size < a.size + b.size := by
  have hale := split_size_le a
  have hble := split_size_le b
  rcases h with h | h
  · have := split_size_lt h
    omega
  · have := split_size_lt h
    omega

/-- What a case needs of the intersections of smaller schemas. -/
structure Inner (env : Env) (d : Dialect) (exactly : Prop) (a b : Schema) (meet : Schema → Schema → Compose Schema) :
    Prop where
  meets : ∀ s t : Schema, Admissible d exactly s → Admissible d exactly t →
    (exactly → s.size + t.size < a.size + b.size) → Meeting env d exactly s t (meet s t)
  core : exactly → ∀ s t : Schema, CorePair s t → s.size + t.size < a.size + b.size →
    (meet s t).Yields Core fun _ => True

theorem Inner.parts (h : Inner env d exactly a b meet) (ha : Admissible d exactly a) (hb : Admissible d exactly b)
    {s t : Schema} (hs : s ∈ a.parts) (ht : t ∈ b.parts) : Meeting env d exactly s t (meet s t) := by
  refine h.meets s t (ha.part hs) (hb.part ht) fun _ => ?_
  have := size_lt_of_part hs
  have := size_lt_of_part ht
  omega

theorem Inner.constrained (h : Inner env d exactly a b meet) (ha : Admissible d exactly a)
    (hb : Admissible d exactly b) (hda : a.Direct) (hdb : b.Direct) (hla : ∀ v, a ≠ .literal v)
    (hlb : ∀ v, b ≠ .literal v) (hcon : a.isConstrained = true ∨ b.isConstrained = true) :
    Meeting env d exactly a b (Env.meetConstrained meet a b) := by
  have hlt := split_sizes_lt hcon
  refine meetConstrained ha.fits hb.fits (h.meets _ _ ha.split hb.split fun _ => hlt) ?_
  by_cases he : exactly
  · obtain ⟨hac, hak⟩ := core_split (ha.structural he).root.elementary hda hla
    obtain ⟨hbc, hbk⟩ := core_split (hb.structural he).root.elementary hdb hlb
    have hpair : CorePair a.split.1 b.split.1 := hcon.imp (fun hcon => ⟨hak hcon, hbc⟩) fun hcon => ⟨hac, hbk hcon⟩
    exact (h.core he _ _ hpair hlt).mono (fun _ hc _ => hc.broad) fun _ h => h
  · exact fun met => Ends.mono (P := fun _ => True) (Q := fun _ => True) (by unfold Ends; split <;> trivial)
      (fun _ _ hexact => absurd hexact he) fun _ h => h

/-- Schemas that are neither references nor unions meet by their forms, if their domains do not tell them apart. -/
theorem meetPlain_forms {P : Schema → Prop} {Q : Fault → Prop} (hg : env.Grounded d) (ha : a.Every (Fits d))
    (hb : b.Every (Fits d)) (hda : a.Direct) (hdb : b.Direct) (hapart : ∀ e, Disjoint env a b e → Q e)
    (hcore : CorePair a b → (env.meetPlain meet a b).Yields P Q)
    (hgathered : a.isIntersection = true ∨ b.isIntersection = true →
      P (.intersection (distinct (a.members ++ b.members))))
    (hleft : ∀ v, a = .literal v → (env.meetLiteral (.literal v) v b).Yields P Q)
    (hright : ∀ v, b = .literal v → (env.meetLiteral (.literal v) v a).Yields P Q)
    (hconstrained : Touches env a b → (∀ v, a ≠ .literal v) → (∀ v, b ≠ .literal v) →
      (a.isConstrained = true ∨ b.isConstrained = true) → (Env.meetConstrained meet a b).Yields P Q)
    (hobjects : ∀ p q, a = .object p → b = .object q →
      Compose.Yields (do env.makeObject (← ObjectShape.meetShapes env.admits meet p q)) P Q)
    (htuples : ∀ es fs, a = .tuple es → b = .tuple fs → (Element.meetTuples meet es fs).Yields P Q) :
    (env.meetPlain meet a b).Yields P Q := by
  by_cases hpair : CorePair a b
  · exact hcore hpair
  obtain ⟨x, hx, hax⟩ := Env.domains?_spec hg true ha
  obtain ⟨y, hy, hby⟩ := Env.domains?_spec hg true hb
  unfold Env.meetPlain
  refine domainsFirst hx hy hax hby hapart fun hnonempty => ?_
  have htouch : Touches env a b := fun x' y' hx' hy' =>
    hnonempty x' y' (Except.ok.inj (hx.symm.trans hx')) (Except.ok.inj (hy.symm.trans hy'))
  have hconstrained := hconstrained htouch
  cases a with
  | union bs => simp [Direct, isUnion] at hda
  | ref r => simp [Direct, isRef] at hda
  | intersection ms => exact .pure (hgathered (Or.inl rfl))
  | literal v =>
    cases b with
    | intersection ms => exact .pure (hgathered (Or.inr rfl))
    | _ => exact hleft v rfl
  | constrained s cs =>
    cases b with
    | union bs => simp [Direct, isUnion] at hdb
    | ref r => simp [Direct, isRef] at hdb
    | intersection ms => exact .pure (hgathered (Or.inr rfl))
    | literal v => exact hright v rfl
    | _ => exact hconstrained (by simp) (by simp) (Or.inl rfl)
  | keyword k =>
    cases b with
    | union bs => simp [Direct, isUnion] at hdb
    | ref r => simp [Direct, isRef] at hdb
    | intersection ms => exact .pure (hgathered (Or.inr rfl))
    | literal v => exact hright v rfl
    | constrained t ds => exact hconstrained (by simp) (by simp) (Or.inr rfl)
    | keyword l => exact absurd (Or.inl ⟨⟨k, rfl⟩, Or.inl ⟨l, rfl⟩⟩) hpair
    | object o => exact absurd (Or.inl ⟨⟨k, rfl⟩, Or.inr rfl⟩) hpair
    | tuple es => exact absurd (Or.inl ⟨⟨k, rfl⟩, Or.inr rfl⟩) hpair
  | object o =>
    cases b with
    | union bs => simp [Direct, isUnion] at hdb
    | ref r => simp [Direct, isRef] at hdb
    | intersection ms => exact .pure (hgathered (Or.inr rfl))
    | literal v => exact hright v rfl
    | constrained t ds => exact hconstrained (by simp) (by simp) (Or.inr rfl)
    | keyword l => exact absurd (Or.inr ⟨Or.inr rfl, ⟨l, rfl⟩⟩) hpair
    | object q => exact hobjects o q rfl rfl
    | tuple fs =>
      have hempty : ((DomainSet.of [.object]).inter (.of [.array])).isEmpty = false :=
        htouch _ _ (structure_domains rfl) (structure_domains rfl)
      exact absurd hempty (by decide)
  | tuple es =>
    cases b with
    | union bs => simp [Direct, isUnion] at hdb
    | ref r => simp [Direct, isRef] at hdb
    | intersection ms => exact .pure (hgathered (Or.inr rfl))
    | literal v => exact hright v rfl
    | constrained t ds => exact hconstrained (by simp) (by simp) (Or.inr rfl)
    | keyword l => exact absurd (Or.inr ⟨Or.inr rfl, ⟨l, rfl⟩⟩) hpair
    | object q =>
      have hempty : ((DomainSet.of [.array]).inter (.of [.object])).isEmpty = false :=
        htouch _ _ (structure_domains rfl) (structure_domains rfl)
      exact absurd hempty (by decide)
    | tuple fs => exact htuples es fs rfl rfl

/-- The intersection of schemas that are neither references nor unions. -/
theorem meetPlain_spec (hd : d.lazy) (hg : env.Grounded d) (htry : Tries env exactly) (ha : Admissible d exactly a)
    (hb : Admissible d exactly b) (hda : a.Direct) (hdb : b.Direct) (h : Inner env d exactly a b meet) :
    Meeting env d exactly a b (env.meetPlain meet a b) := by
  refine meetPlain_forms hg ha.fits hb.fits hda hdb (fun _ he => he.apart)
    (fun hcore => (meetPlain_core hcore).mono (fun _ hc => hc.meets ha hb) fun _ he => he.apart) (fun hint => ?_)
    (fun v hv => ?_) (fun v hv => ?_) (fun _ hla hlb => h.constrained ha hb hda hdb hla hlb) (fun p q hp hq => ?_)
    fun es fs he hf => ?_
  · refine meets_members hd (fun he => ?_) ha.fits hb.fits
    rcases hint with hint | hint
    · cases a <;> first | exact (ha.structural he).root.elim | simp [isIntersection] at hint
    · cases b <;> first | exact (hb.structural he).root.elim | simp [isIntersection] at hint
  · subst hv
    exact meetLiteral hg htry ha.fits.root hb.fits
  · subst hv
    exact (meetLiteral hg htry hb.fits.root ha.fits).symm
  · subst hp hq
    exact meetObjects ha.fits hb.fits ha.orderly hb.orderly fun p hp r hr =>
      h.parts ha hb (List.mem_append_left _ (List.mem_map_of_mem hp)) (List.mem_append_left _ (List.mem_map_of_mem hr))
  · subst he hf
    exact meetTuples hd ha.fits hb.fits ha.orderly hb.orderly (fun he => (ha.structural he).root)
      (fun he => (hb.structural he).root) fun e he f hf =>
      h.parts ha hb (List.mem_map_of_mem he) (List.mem_map_of_mem hf)

theorem Admissible.of_behind {s : Schema} (hg : env.Grounded d) (ha : Admissible d exactly a)
    (hs : env.behind? a = .ok (some s)) (hno : ¬ exactly) :
    Admissible d exactly s ∧ ∀ v, a.Member env true v ↔ s.Member env true v := by
  obtain ⟨hfits, -⟩ := Env.behind?_fits hg ha.fits hs
  exact ⟨⟨hfits, fun he => absurd he hno⟩, fun _ => Env.member_behind hg ha.fits hs⟩

/-- References meet by what stands behind them, once for every pair. -/
theorem references_spec (hg : env.Grounded d) (hno : ¬ exactly) (ha : Admissible d exactly a)
    (hb : Admissible d exactly b) {expanding : List (Schema × Schema)}
    (hlazy : Meets env d exactly a b (.intersection [a, b]))
    (h : ∀ s t : Schema, Admissible d exactly s → Admissible d exactly t → Meeting env d exactly s t (meet s t)) :
    Meeting env d exactly a b (do
      a.hashable b
      if a.pairIn b expanding then pure (.intersection [a, b])
      else
        match ← env.behind? a, ← env.behind? b with
        | some s, some t => meet s t
        | _, _ => do
          Compose.defer
          pure (.intersection [a, b])) := by
  have reads : ∀ {α : Type} (x : Except Fault α), Ends x (fun r => x = .ok r) (Apart env exactly a b) := by
    intro α x
    cases x with
    | ok r => rfl
    | error e => exact fun he => absurd he hno
  refine Compose.Yields.bind (.lift (reads _)) fun _ _ => ?_
  split_ifs with hpair
  · exact .pure hlazy
  refine Compose.Yields.bind (.lift (reads _)) fun s? hs => ?_
  refine Compose.Yields.bind (.lift (reads _)) fun t? ht => ?_
  have pending : Meeting env d exactly a b (do
      Compose.defer
      pure (.intersection [a, b])) :=
    Compose.Yields.bind (.defer (R := fun _ => True) trivial) fun _ _ => .pure hlazy
  cases s? with
  | none => exact pending
  | some s =>
    cases t? with
    | none => exact pending
    | some t =>
      obtain ⟨hsa, hiffs⟩ := ha.of_behind hg hs hno
      obtain ⟨htb, hifft⟩ := hb.of_behind hg ht hno
      exact (h s t hsa htb).mono (fun _ h => h.congr hiffs hifft) fun _ h => h.congr hiffs hifft

/-- A keyword meets a keyword, an object or a tuple by the shortcuts or by their forms. -/
theorem meetWithin_pair {P : Schema → Prop} {Q : Fault → Prop} {fuel : Nat} {expanding : List (Schema × Schema)}
    (h : CorePair a b) (hsame : a.same b = true → P a) (hleft : a = unknown → P b) (hright : b = unknown → P a)
    (hplain : (env.meetPlain (env.meetWithin fuel expanding) a b).Yields P Q) :
    (env.meetWithin (fuel + 1) expanding a b).Yields P Q := by
  have other : ∀ s : Schema, s.Core → s.isNever = false ∧ s.Direct := by
    rintro s (⟨k, rfl⟩ | hs)
    · exact ⟨rfl, rfl, rfl⟩
    · cases s <;> first | exact ⟨rfl, rfl, rfl⟩ | simp [isStructure] at hs
  obtain ⟨hna, hra, hua⟩ := other a h.core.1
  obtain ⟨hnb, hrb, hub⟩ := other b h.core.2
  refine meetWithin_forms hsame hleft hright (by simp [hna, hnb]) (by simp [hra, hrb]) ?_ ?_ fun _ => hplain
  · rintro bs rfl
    simp [isUnion] at hua
  · rintro bs rfl
    simp [isUnion] at hub

/-- A keyword meets a keyword, an object or a tuple in the smaller one. -/
theorem meetWithin_smaller {fuel : Nat} {expanding : List (Schema × Schema)} (h : CorePair a b)
    (ha : a.Every (Fits d)) (hb : b.Every (Fits d)) :
    (env.meetWithin (fuel + 1) expanding a b).Yields (Smaller env a b) (Disjoint env a b) := by
  refine meetWithin_pair h (fun hsame => Or.inl ⟨rfl, fun v => (member_of_same ha hb hsame v).mp⟩) ?_ ?_
    (meetPlain_core h)
  · rintro rfl
    exact Or.inr ⟨rfl, fun _ _ => member_unknown⟩
  · rintro rfl
    exact Or.inl ⟨rfl, fun _ _ => member_unknown⟩

/-- One of two keywords is their intersection. -/
theorem meetWithin_keywords (fuel : Nat) (expanding : List (Schema × Schema)) (k l : Keyword) :
    (env.meetWithin (fuel + 1) expanding (.keyword k) (.keyword l)).Yields (Smaller env (.keyword k) (.keyword l))
      (Disjoint env (.keyword k) (.keyword l)) := by
  have fits : ∀ k : Keyword, (keyword k).Every (Fits Dialect.plain) := fun _ => .intro trivial nofun
  exact meetWithin_smaller (Or.inl ⟨⟨k, rfl⟩, Or.inl ⟨l, rfl⟩⟩) (fits k) (fits l)

theorem meetWithin_core (fuel : Nat) (expanding : List (Schema × Schema)) (h : CorePair a b) :
    (env.meetWithin (fuel + 1) expanding a b).Yields Core fun _ => True := by
  obtain ⟨ha, hb⟩ := h.core
  refine meetWithin_pair h (fun _ => ha) (fun _ => hb) (fun _ => ha) ((meetPlain_core h).mono ?_ fun _ _ => trivial)
  rintro c (⟨rfl, -⟩ | ⟨rfl, -⟩)
  · exact ha
  · exact hb

end Cases

end Schema

namespace Env

open Schema

variable {env : Env} {d : Dialect} {exactly : Prop} {a b : Schema}

/-- With fuel for all their parts schemas of the exact part meet exactly; the others admit nothing new with any
fuel. -/
theorem meetWithin_spec (hd : d.lazy) (hg : env.Grounded d) (htry : Tries env exactly) {fuel : Nat}
    {expanding : List (Schema × Schema)} (ha : Admissible d exactly a) (hb : Admissible d exactly b)
    (hfuel : exactly → a.size + b.size ≤ fuel) :
    Meeting env d exactly a b (env.meetWithin fuel expanding a b) := by
  have lazily : ¬ exactly → ∀ {s t : Schema}, s.Every (Fits d) → t.Every (Fits d) →
      Meets env d exactly s t (.intersection [s, t]) := fun hno _ _ hs ht =>
    Meets.conjunction hd (by simp [hs, ht]) (fun he => absurd he hno) fun v => by simp
  induction fuel generalizing expanding a b with
  | zero =>
    refine .pure (lazily (fun he => ?_) ha.fits hb.fits)
    have := hfuel he
    have := a.size_pos
    omega
  | succ fuel ih =>
    have inner : Inner env d exactly a b (env.meetWithin fuel expanding) := by
      refine ⟨fun s t hs ht hlt => ih hs ht fun he => ?_, fun he s t hpair hlt => ?_⟩
      · have := hfuel he
        have := hlt he
        omega
      · have := hfuel he
        have := s.size_pos
        obtain ⟨n, rfl⟩ : ∃ n, fuel = n + 1 := Nat.exists_eq_succ_of_ne_zero (by omega)
        exact meetWithin_core n expanding hpair
    refine meetWithin_forms (fun hsame => ?_) (fun hua => ?_) (fun hub => ?_) (fun _ _ _ hnever => ?_) (fun href => ?_)
      (fun bs hbs _ _ => ?_) (fun bs hbs _ _ => ?_)
      fun hu => meetPlain_spec hd hg htry ha hb hu.direct hu.direct' inner
    · exact Meets.left ha.fits ha.orderly fun v _ => (member_of_same ha.fits hb.fits hsame v).mp
    · exact (Meets.left hb.fits hb.orderly fun v _ _ => hua ▸ member_unknown).symm
    · exact Meets.left ha.fits ha.orderly fun v _ _ => hub ▸ member_unknown
    · refine fun _ => ⟨rfl, fun v _ _ hva hvb => ?_⟩
      rcases hnever with hn | hn
      · exact not_member_never (eq_never hn ▸ hva)
      · exact not_member_never (eq_never hn ▸ hvb)
    · have hno : ¬ exactly := fun he => by
        rcases href with h | h
        · obtain ⟨r, rfl⟩ := isRef_iff.mp h
          exact (ha.structural he).root
        · obtain ⟨r, rfl⟩ := isRef_iff.mp h
          exact (hb.structural he).root
      exact references_spec hg hno ha hb (lazily hno ha.fits hb.fits) fun s t hs ht =>
        ih hs ht fun he => absurd he hno
    · subst hbs
      refine meetBranches_spec fun s hs => ih (ha.part hs) hb fun he => ?_
      have := hfuel he
      have := size_lt_of_part (s := .union bs) hs
      omega
    · subst hbs
      refine (meetBranches_spec fun t ht => Meeting.symm (ih ha (hb.part ht) fun he => ?_)).symm
      have := hfuel he
      have := size_lt_of_part (s := .union bs) ht
      omega

end Env
end Schemata
