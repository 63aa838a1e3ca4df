import Schemata.Proofs.Scope.Calls
import Schemata.Proofs.Scope.KeyDomains
import Schemata.Proofs.Scope.Reserving

/-! Keys of index signatures, from call to call. An object is built only with a key whose domains are unknown or those of
strings and symbols; they are worked out once, so a key that is a name is checked by what its definition is by then. -/
namespace Schemata
namespace Env

variable {env : Env} {o : ObjectShape Schema} {s : Schema} {i : IndexSignature Schema}

/-- An object is built when the domains of its index key are unknown or those of strings and symbols. -/
theorem domains_of_makeObject (h : env.makeObject o = .ok s) (hi : o.index = some i) :
    ∃ d, env.domains? i.key = .ok d ∧ ∀ D, d = some D → D.subset ObjectShape.keyDomains = true := by
  unfold makeObject at h
  cases hk : ObjectShape.repeatedKey? [] o.keys with
  | some k => simp [hk] at h
  | none =>
    simp only [hk, hi] at h
    obtain ⟨d, hd, h⟩ := bind_ok h
    refine ⟨d, hd, ?_⟩
    rintro D rfl
    dsimp only at h
    split_ifs at h with hsub
    exact hsub

end Env

namespace Arenas

variable {as bs : List Arena} {a b c : Arena} {id : Nat} {r : Ref} {k s t : Schema}

/-- The limits of what is read through a scope. -/
def limits (as : List Arena) (id : Nat) : Limits := ⟨Named as id, Allowed as⟩

theorem Keyed.encloses (h : Keyed as) (hsound : Sound as) (id : Nat) : Encloses as (limits as id) := by
  refine ⟨fun r hr => hr.2, fun r t hr ht => Schema.within_iff_into_indexes.mpr ⟨?_, ?_⟩⟩
  · exact (hsound.closed id).leads r t hr ht
  · obtain ⟨-, a, ha, -⟩ := hr
    exact h r.arena a r.handle t ha ((filled ha).mp ht)

/-- A name that passed the check of an object is allowed as its key. -/
theorem allowed_of_makeObject (hsound : Sound as) {env : Env} (henv : env.arenas = as) {o : ObjectShape Schema}
    {i : IndexSignature Schema} (h : env.makeObject o = .ok s) (hi : o.index = some i)
    (hkey : i.key.IsNamed (limits as id)) : Allowed as i.key := by
  obtain ⟨d, hd, hsub⟩ := Env.domains_of_makeObject h hi
  have hnamed : ∀ r, i.key.Consults r → Named as id r := fun r hr =>
    hr.of_into (Schema.within_iff_into_indexes.mp hkey.within).1
  rcases hkey.form with hform | ⟨domain, hother, hdomains⟩
  · by_cases hfilled : ∀ r, Consults as i.key r → ∃ t, target as r = .filled t
    · refine Or.inl ⟨hform, hfilled, fun env' henv' => ⟨d, ?_, hsub⟩⟩
      exact (domains?_extend hsound (.refl as) hfilled hnamed henv' henv).trans hd
    · push Not at hfilled
      obtain ⟨r, hr, hempty⟩ := hfilled
      have hpending := (hr.named hsound hnamed).pending hempty
      obtain ⟨q, hq⟩ : ∃ q, i.key = .ref q := by
        cases hr with
        | here hq => exact ⟨_, hform.eq_ref hq⟩
        | behind hq => exact ⟨_, hform.eq_ref hq⟩
      exact Or.inr ⟨q, hq, Or.inr ⟨r, hq ▸ hr, hpending⟩⟩
  · have hd' : env.domains? i.key = .ok (some (.of [domain])) := hdomains _
    rw [hd] at hd'
    have hin := DomainSet.subset_iff.mp (hsub _ (Except.ok.inj hd')) domain (by simp [DomainSet.of])
    simp [hother] at hin

theorem Keyed.reader (h : Keyed as) (hsound : Sound as) (id : Nat) :
    Engine.Reader Limits.Fair as id (limits as id) :=
  ⟨fun _ h => h, allowed_fair as, hsound, h.encloses hsound id, fun _ hr => hr,
    fun _ _ _ _ henv hmake hi hkey => allowed_of_makeObject hsound henv hmake hi hkey⟩

theorem extends_replace (ha : find? as id = some a) (hid : b.id = id) (h : a.Extends b) : Extends as (replace as b) := by
  intro other c hc
  rw [find?_replace ha hid]
  split_ifs with hother
  · subst hother
    exact ⟨b, rfl, Option.some.inj (ha.symm.trans hc) ▸ h⟩
  · exact ⟨c, hc, .refl c⟩

/-- Keys stay allowed when definitions are added, where a name that led to an empty slot still does or was early. -/
theorem Allowed.extend (h : Allowed as k) (hsound : Sound as) (he : Extends as bs) (hk : k.Into (Named as id))
    (hopen : ∀ r q, k = .ref r → Consults as k q → target as q = .pending → Early bs r ∨ target bs q = .pending) :
    Allowed bs k := by
  rcases h with ⟨hform, hfine⟩ | ⟨r, rfl, hearly | ⟨q, hq, hpending⟩⟩
  · exact Or.inl ⟨hform, hfine.extend hsound he fun r hr => hr.of_into hk⟩
  · exact Or.inr ⟨r, rfl, Or.inl (hearly.extend he)⟩
  · rcases hopen r q rfl hq hpending with hearly | hpending
    · exact Or.inr ⟨r, rfl, Or.inl hearly⟩
    · exact Or.inr ⟨r, rfl, Or.inr ⟨q, hq.extend he, hpending⟩⟩

/-- The keys of what stands in a slot refer to names of the arena. -/
theorem Sound.indexes_into (h : Sound as) (ha : find? as id = some a) {i : Nat} (hi : a.slots[i]? = some (some t))
    (hk : t.Indexes k) : k.Into (Named as id) :=
  hk.into (((h id a ha).refers i t hi).mono fun _ => registers_of_arena ha)

/-- A slot is filled with what was read before any slot behind it was filled. -/
theorem Keyed.fill (h : Keyed as) (hsound : Sound as) (ha : find? as id = some a)
    (hpending : a.slots[r.handle]? = some none) (hbelow : ∀ (i : Nat) u, a.slots[i]? = some (some u) → i ≤ r.handle)
    (ht : t.Within (limits as id)) : Keyed (replace as (a.fill r t)) := by
  have hid : a.id = id := id_of_find ha
  have he : Extends as (replace as (a.fill r t)) := extends_replace ha (b := a.fill r t) hid (Arena.extends_fill hpending t)
  intro other c i u hc hu k hk
  have hstored : Allowed as k ∧ k.Into (Named as other) ∧ (other = id → i ≤ r.handle) := by
    have hfind := hc
    rw [find?_replace ha (b := a.fill r t) hid] at hfind
    split_ifs at hfind with hother
    · subst hother
      obtain rfl := Option.some.inj hfind
      by_cases hi : r.handle = i
      · subst hi
        obtain rfl : t = u := by simpa [Arena.fill, (List.getElem?_eq_some_iff.mp hpending).1] using hu
        obtain ⟨hinto, hkeys⟩ := Schema.within_iff_into_indexes.mp ht
        exact ⟨hkeys k hk, hk.into hinto, fun _ => le_rfl⟩
      · have hold : a.slots[i]? = some (some u) := (List.getElem?_set_ne hi).symm.trans hu
        exact ⟨h other a i u ha hold k hk, hsound.indexes_into ha hold hk, fun _ => hbelow i u hold⟩
    · exact ⟨h other c i u hfind hu k hk, hsound.indexes_into hfind hu hk, fun heq => absurd heq hother⟩
  obtain ⟨hallowed, hinto, hi⟩ := hstored
  refine hallowed.extend hsound he hinto fun q p hq hp hempty => ?_
  subst hq
  obtain ⟨harena, -⟩ := Schema.into_ref.mp hinto
  obtain ⟨rfl, -⟩ := hp.named hsound fun _ hq => hq.of_into hinto
  by_cases hother : p.arena = id
  · by_cases hhandle : r.handle = p.handle
    · -- the empty slot that the key leads to is the one that is filled now
      exact Or.inl ⟨c, i, u, harena ▸ hc, hu, hk, p, hp.extend he, hhandle ▸ hi hother⟩
    · refine Or.inr ?_
      rw [target_of_find ((find?_replace ha (b := a.fill r t) hid _).trans (if_pos hother))]
      rw [target_of_find (hother ▸ ha)] at hempty
      unfold Arena.target at hempty ⊢
      rwa [show (a.fill r t).slots[p.handle]? = a.slots[p.handle]? from List.getElem?_set_ne hhandle]
  · refine Or.inr ?_
    unfold target at hempty ⊢
    rwa [find?_replace ha (b := a.fill r t) hid, if_neg hother]

/-- Slots may be reserved and arenas added: what is pending stays so. -/
theorem Keyed.extend (h : Keyed as) (hsound : Sound as) (he : Extends as bs)
    (hback : ∀ id b (i : Nat) (t : Schema), find? bs id = some b → b.slots[i]? = some (some t) →
      ∃ a, find? as id = some a ∧ a.slots[i]? = some (some t))
    (hopen : ∀ id q, Named as id q → target as q = .pending → target bs q = .pending) : Keyed bs := by
  intro id b i t hb ht k hk
  obtain ⟨a, ha, hold⟩ := hback id b i t hb ht
  have hinto := hsound.indexes_into ha hold hk
  exact (h id a i t ha hold k hk).extend hsound he hinto fun r q _ hq hpending =>
    Or.inr (hopen id q (hq.named hsound fun _ hp => hp.of_into hinto) hpending)

end Arenas

namespace Session

variable {s t u : Session} {id : Nat} {a b c : Arena}

/-- Index signatures have allowed keys, in what the scopes hold and in what the memo makes of it. -/
structure Keyed (s : Session) : Prop where
  neat : s.Neat Limits.Fair
  keys : Arenas.Keyed s.arenas

namespace Keyed

theorem steady (h : s.Keyed) (hst : s.Steady t) (ht : t.Neat Limits.Fair) : t.Keyed := ⟨ht, hst.arenas ▸ h.keys⟩

theorem reads (h : s.Keyed) {α : Type} {x : Engine α} {P : α → Prop} (hx : Engine.Reads Limits.Fair s.arenas x P) :
    (x.run s).2.Keyed := by
  obtain ⟨-, hsteady, hneat⟩ := hx s rfl h.neat
  exact h.steady hsteady hneat

theorem parse (h : s.Keyed) (id : Nat) (given : Option Config) {d : Value} (hd : d.isPlain = true) :
    Engine.Reads Limits.Fair s.arenas (Engine.parse (some id) given d) (Schema.Within (Arenas.limits s.arenas id)) :=
  Engine.parse_reads (h.keys.reader h.neat.arenas id) given hd

theorem setScope {sc : Scope} (h : s.Keyed)
    (hwaiting : ∀ checks, sc.waiting = some checks → ∀ c ∈ checks, c.Reserved s.arenas) : (s.setScope id sc).Keyed :=
  ⟨h.neat.setScope hwaiting, h.keys⟩

theorem bind {α β : Type} {x : Engine α} {f : α → Engine β} (h : (x.run s).2.Keyed)
    (hf : ∀ a, ((f a).run (x.run s).2).2.Keyed) : ((x >>= f).run s).2.Keyed := by
  rw [Engine.run_bind]
  cases hrun : x.run s with
  | mk outcome t =>
    rw [hrun] at h hf
    cases outcome with
    | error e => exact h
    | ok a => exact hf a

theorem discard {α : Type} {x : Engine α} (h : (x.run s).2.Keyed) : ((Functor.discard x).run s).2.Keyed := by
  rw [Engine.discard_run]
  exact h

theorem setWaiting (h : s.Keyed) (id : Nat) (waiting : Option (List DeferredCheck))
    (hwaiting : ∀ checks, waiting = some checks → ∀ c ∈ checks, c.Reserved s.arenas) :
    ((Engine.setWaiting id waiting).run s).2.Keyed := by
  unfold Engine.setWaiting
  rw [Engine.run_modify]
  cases s.scope? id with
  | none => exact h
  | some sc => exact h.setScope hwaiting

theorem freeze (h : s.Keyed) (id : Nat) : ((Engine.freeze id).run s).2.Keyed := by
  unfold Engine.freeze
  rw [Engine.run_modify]
  cases hsc : s.scope? id with
  | none => exact h
  | some sc => exact h.setScope (h.neat.waiting id sc · hsc)

theorem validate (h : s.Keyed) (id : Nat) (config : Option Config) {d : Value} (hd : d.isPlain = true) (v : Value) :
    ((Engine.validate (some id) config d v).run s).2.Keyed := by
  unfold Engine.validate Engine.validateSchema
  rw [Engine.schemaOf_of_isPlain (some id) config hd]
  have hparse := h.reads (h.parse id config hd)
  refine hparse.bind fun schema => ?_
  have hfreeze := hparse.freeze id
  refine hfreeze.bind fun _ => ?_
  have hconfig := hfreeze.reads (Engine.config_reads (some id) config)
  refine hconfig.bind fun c => hconfig.reads (P := fun _ => True) ?_
  exact (Engine.Reads.env _).bind fun _ _ => .lift fun _ _ => trivial

/-- A new scope has no names yet. -/
theorem opened (h : s.Keyed) (hs : s.Settled) (c : Config) : (s.opened c).Keyed := by
  obtain ⟨⟨htidy, -⟩, -⟩ := settled_opened hs c
  have hneat := h.neat.evolve (evolves_opened s c) htidy.arenas
  refine ⟨⟨hneat.arenas, hneat.memo, htidy.waiting⟩, h.keys.extend h.neat.arenas ?_ ?_ ?_⟩
  · exact fun id a ha => ⟨a, arena?_opened ha, .refl a⟩
  · intro id b i t hb ht
    rcases arena_of_opened hb with hb | rfl
    · exact ⟨b, hb, ht⟩
    · simp [Arena.empty] at ht
  · rintro id q ⟨-, a, ha, -⟩ hq
    rw [Arenas.target_of_find ha] at hq
    rw [Arenas.target_of_find (arena?_opened (c := c) ha), hq]

/-- Slots for the names of a batch are empty. -/
theorem reserve (h : s.Keyed) (ha : Arenas.find? s.arenas id = some a) {names : List String}
    (hsound : (a.reserve names).Sound) : { s with arenas := Arenas.replace s.arenas (a.reserve names) }.Keyed := by
  have hid : a.id = id := Arenas.id_of_find ha
  have hgrows := Arena.Grows.reserve a names
  have hfind := Arenas.find?_replace ha (b := a.reserve names) hid
  refine ⟨h.neat.evolve (Arenas.evolves_grows ha (h.neat.arenas id a ha) hsound hgrows)
    (h.neat.arenas.replace ha hid hsound), h.keys.extend h.neat.arenas ?_ ?_ ?_⟩
  · exact Arenas.extends_replace ha (b := a.reserve names) hid hgrows.extends
  · intro other b i t hb ht
    rw [hfind] at hb
    split_ifs at hb with hother
    · subst hother
      obtain rfl := Option.some.inj hb
      refine ⟨a, ha, ?_⟩
      have hslot : (a.slots ++ List.replicate names.length none)[i]? = some (some t) := ht
      by_cases hi : i < a.slots.length
      · rwa [List.getElem?_append_left hi] at hslot
      · rw [List.getElem?_append_right (Nat.le_of_not_lt hi), List.getElem?_replicate] at hslot
        simp at hslot
    · exact ⟨b, hb, ht⟩
  · rintro other q ⟨-, b, hb, hq⟩ hpending
    by_cases hother : q.arena = id
    · obtain rfl : a = b := Option.some.inj (ha.symm.trans (hother ▸ hb))
      rw [Arenas.target_of_find hb] at hpending
      rw [Arenas.target_of_find ((hfind _).trans (if_pos hother)), hgrows.target (h.neat.arenas _ a hb) hq, hpending]
    · unfold Arenas.target at hpending ⊢
      rwa [hfind, if_neg hother]

/-- Where every name has its schema, the keys are allowed again when later names are given up. -/
theorem restores (h : s.Keyed) (hs : s.Settled) (ha : Arenas.find? s.arenas id = some a) (hgrown : Grown id s a t b)
    (hrestores : a.Restores b) : Arenas.Keyed t.arenas := by
  have hback : ∀ other c, Arenas.find? t.arenas other = some c →
      other = id ∧ c = b ∨ Arenas.find? s.arenas other = some c := by
    intro other c hc
    by_cases hother : other = id
    · exact Or.inl ⟨hother, Option.some.inj ((hother ▸ hc).symm.trans hgrown.arena)⟩
    · exact Or.inr ((hgrown.others other hother).symm.trans hc)
  refine h.keys.extend h.neat.arenas (fun other c hc => ?_) (fun other c i u hc hu => ?_) fun other q hq hpending => ?_
  · by_cases hother : other = id
    · obtain rfl : a = c := Option.some.inj (ha.symm.trans (hother ▸ hc))
      exact ⟨b, hother ▸ hgrown.arena, hgrown.grows.extends⟩
    · exact ⟨c, (hgrown.others other hother).trans hc, .refl c⟩
  · rcases hback other c hc with ⟨rfl, rfl⟩ | hc
    · exact ⟨a, ha, hrestores.slots i u hu⟩
    · exact ⟨c, hc, hu⟩
  · obtain ⟨-, c, hc, hcq⟩ := hq
    obtain ⟨u, hu⟩ := hs.full _ c hc q hcq
    rw [Arenas.target_of_find hc, hu] at hpending
    simp at hpending

end Keyed

end Session

namespace Engine

variable {s t : Session} {id : Nat} {a b : Arena} {batch : List (Ref × Value)}

/-- A batch is filled slot by slot, from the first to the last. -/
theorem fillAll_keyed (h : Session.Grown id s a t b) (hbatch : Awaits a b batch) (hkeyed : t.Keyed)
    (hsorted : batch.Pairwise fun e f => e.1.handle < f.1.handle)
    (hbelow : ∀ e ∈ batch, ∀ (i : Nat) u, b.slots[i]? = some (some u) → i ≤ e.1.handle) :
    ((fillAll id batch).run t).2.Keyed := by
  induction batch generalizing t b with
  | nil => exact hkeyed
  | cons e batch ih =>
    obtain ⟨r, d⟩ := e
    obtain ⟨hparse, hsteady, hneat⟩ := hkeyed.parse id none (hbatch.plain _ List.mem_cons_self) t rfl hkeyed.neat
    have hgrown := h.steady hsteady hneat.tidy
    have hkeyed' := hkeyed.steady hsteady hneat
    unfold fillAll
    cases hrun : (parse (some id) none d).run t with
    | mk outcome u =>
      rw [hrun] at hparse hsteady hgrown hkeyed'
      cases outcome with
      | error e =>
        rw [run_bind_error hrun]
        exact hkeyed'
      | ok schema =>
        obtain ⟨hsorted', hsorted⟩ := List.pairwise_cons.mp hsorted
        have harenas : u.arenas = t.arenas := hsteady.arenas
        have hpending := hbatch.pending _ List.mem_cons_self
        obtain ⟨hupdate, hstep⟩ := fill_grows hgrown hbatch
          ((Schema.within_iff_into_indexes.mp hparse).1.mono fun q => (Arenas.named_iff h.arena).mp)
        rw [run_bind_ok hrun, run_bind_ok hupdate]
        refine ih hstep (hbatch.fill h.sound) ⟨?_, ?_⟩ hsorted fun e he i v hi => ?_
        · exact hkeyed'.neat.evolve
            (Arenas.evolves_fill hgrown.arena fun t ht => by simp [hpending] at ht) hstep.tidy.arenas
        · refine hkeyed'.keys.fill hkeyed'.neat.arenas hgrown.arena hpending (hbelow _ List.mem_cons_self) ?_
          exact harenas ▸ hparse
        · by_cases hri : r.handle = i
          · exact hri ▸ (hsorted' e he).le
          · have hold : b.slots[i]? = some (some v) := (List.getElem?_set_ne hri).symm.trans hi
            exact hbelow e (List.mem_cons_of_mem _ he) i v hold

theorem completeBatch_keyed (h : Session.Grown id s a t b) (hbatch : Awaits a b batch) (hkeyed : t.Keyed)
    (hsorted : batch.Pairwise fun e f => e.1.handle < f.1.handle)
    (hbelow : ∀ e ∈ batch, ∀ (i : Nat) u, b.slots[i]? = some (some u) → i ≤ e.1.handle) :
    ((completeBatch id batch).run t).2.Keyed := by
  unfold completeBatch
  obtain ⟨t₁, hrun₁, h₁, -⟩ := setWaiting_grown (some []) h (by
    rintro checks ⟨⟩
    simp)
  have hkeyed₁ : t₁.Keyed := by
    have := hkeyed.setWaiting id (some []) (by
      rintro checks ⟨⟩
      simp)
    rwa [hrun₁] at this
  rw [run_bind_ok hrun₁]
  have hkeyed₂ := fillAll_keyed h₁ hbatch hkeyed₁ hsorted hbelow
  refine hkeyed₂.bind fun _ => ?_
  rw [run_bind, run_get]
  dsimp only
  have hkeyed₃ := hkeyed₂.setWaiting id none (by simp)
  refine hkeyed₃.bind fun _ => hkeyed₃.reads (runAllDeferred_reads (fun _ h => h) (some id) ?_)
  rw [setWaiting_arenas]
  exact waiting_reserved hkeyed₂.neat

/-- The slots of a batch come one after the other. -/
theorem places_ascend {names : List String} {ds : List Value} (hnames : names.Nodup) (hlength : names.length ≤ ds.length) :
    ((names.map (a.place names)).zip ds).Pairwise fun e f => e.1.handle < f.1.handle := by
  have hhandles : (names.map fun n => (a.place names n).handle) = List.range' a.slots.length names.length := by
    have hzip := congrArg (List.map (·.2)) (zipIdx_of_nodup hnames a.slots.length)
    rw [List.zipIdx_map_snd, List.map_map] at hzip
    exact hzip.symm
  have hrefs : (names.map (a.place names)).Pairwise fun q r => q.handle < r.handle := by
    rw [← List.pairwise_map, List.map_map]
    exact hhandles ▸ List.pairwise_lt_range'
  have hzip : ((names.map (a.place names)).zip ds).map (·.1) = names.map (a.place names) :=
    List.map_fst_zip (by simpa using hlength)
  rw [← hzip] at hrefs
  exact (List.pairwise_map (R := fun q r : Ref => q.handle < r.handle)).mp hrefs

/-- With the names of a batch reserved, its definitions are read, or the names are given up. -/
theorem batch_keyed {names : List String} {ds : List Value} (hs : s.Settled) (hkeyed : s.Keyed)
    (ha : s.arena? id = some a) (hnames : names.Nodup) (hfit : ∀ n ∈ names, Schema.ofKeyword? n = none)
    (hnew : ∀ n ∈ names, n ∉ a.names) (hlength : names.length = ds.length) (hplain : ∀ d ∈ ds, d.isPlain = true) :
    ((runBatch id names ds).run s).2.Keyed := by
  obtain ⟨refs, t, b, halloc, hgrown, -, hbnames, hrefs, hslots⟩ := allocateAll_grows hnames hfit (.refl hs.tidy ha) hnew
  have hawaits : Awaits a b (refs.zip ds) :=
    awaits_zip (by rw [← hlength, ← hrefs, List.length_map]) hplain (hrefs ▸ hnames) hslots
  obtain ⟨hkeyed', hsorted, hbelow⟩ : t.Keyed ∧ ((refs.zip ds).Pairwise fun e f => e.1.handle < f.1.handle) ∧
      ∀ e ∈ refs.zip ds, ∀ (i : Nat) u, b.slots[i]? = some (some u) → i ≤ e.1.handle := by
    cases names with
    | nil =>
      obtain ⟨hok, rfl⟩ := Prod.mk.inj ((run_pure [] s).symm.trans halloc)
      obtain rfl := Except.ok.inj hok
      simpa using hkeyed
    | cons name names =>
      have hfind : Arenas.find? s.arenas id = some a := ha
      rw [run_allocateAll hfind hnames] at halloc
      obtain ⟨hok, rfl⟩ := Prod.mk.inj halloc
      obtain rfl := Except.ok.inj hok
      have hreserved : a.reserve (name :: names) = b := by
        have hb := hgrown.arena
        have hid : a.id = id := Arenas.id_of_find hfind
        rw [Arenas.find?_replace hfind (b := a.reserve (name :: names)) hid, if_pos rfl] at hb
        exact Option.some.inj hb
      subst hreserved
      refine ⟨hkeyed.reserve hfind hgrown.sound, places_ascend hnames hlength.le, fun e he i u hi => ?_⟩
      -- what is filled stood in the arena before
      refine le_trans (Nat.le_of_lt ?_) (hawaits.behind e he)
      by_contra hge
      have hslot : (a.slots ++ List.replicate (name :: names).length none)[i]? = some (some u) := hi
      rw [List.getElem?_append_right (Nat.le_of_not_lt hge), List.getElem?_replicate] at hslot
      simp at hslot
  obtain ⟨c, hgrown', hhandles, -⟩ := completeBatch_grows hgrown hawaits
  have hcomplete' := completeBatch_keyed hgrown hawaits hkeyed' hsorted hbelow
  cases hcomplete : (completeBatch id (refs.zip ds)).run t with
  | mk outcome u =>
    rw [hcomplete] at hgrown' hcomplete'
    cases outcome with
    | ok _ =>
      rw [runBatch_ok halloc hcomplete]
      exact hcomplete'
    | error e =>
      have hcnames : c.names = a.names ++ names := hbnames ▸ Arena.names_of_handles hhandles
      obtain ⟨hrestores, hevolves, hback, hdiscard⟩ := discardAll_grows hs.tidy ha hnew hgrown' hcnames
      rw [runBatch_error halloc hcomplete hdiscard]
      refine Session.Keyed.setWaiting ⟨?_, hkeyed.restores hs ha hback hrestores⟩ id none (by simp)
      exact hcomplete'.neat.evolve hevolves hback.tidy.arenas

theorem defineAll_keyed (hs : s.Settled) (hkeyed : s.Keyed) (id : Nat) {definitions : List (Value × Value)}
    (hplain : ∀ d ∈ definitions, d.2.isPlain = true) (hkeys : definitions.Pairwise fun d e => d.1.same e.1 = false) :
    ((defineAll id definitions).run s).2.Keyed := by
  rcases defineAll_cases id definitions s with ⟨outcome, hrun⟩ | ⟨sc, a, names, hsc, ha, hnames, hrun⟩
  · rw [hrun]
    exact hkeyed
  · rw [hrun]
    obtain ⟨hnodup, hfit, hlength⟩ := checkNames_ok hnames hkeys
    exact batch_keyed hs hkeyed ha hnodup (fun n hn => (hfit n hn).1) (fun n hn => (hfit n hn).2.1)
      (by simpa using hlength) (List.forall_mem_map.mpr hplain)

end Engine

namespace ScopeCall

variable {s : Session}

theorem keyed (hs : s.Settled) (hkeyed : s.Keyed) (call : ScopeCall) (h : call.IsPlain) : (call.run.run s).2.Keyed := by
  cases call with
  | openScope config =>
    refine Session.Keyed.discard (Session.Keyed.bind (hkeyed.reads (Engine.config_reads none config)) fun c => ?_)
    exact (hkeyed.reads (Engine.config_reads none config)).opened
      (Session.Rests.reads hs (Engine.config_reads none config)).settled c
  | define id name d =>
    refine (Engine.defineAll_keyed hs hkeyed id ?_ (List.pairwise_singleton _ _)).discard
    exact List.forall_mem_singleton.mpr h
  | defineAll id definitions => exact (Engine.defineAll_keyed hs hkeyed id h.1 h.2).discard
  | freeze id => exact hkeyed.freeze id
  | validate id config d v => exact (hkeyed.validate id config h v).discard

end ScopeCall

namespace Session

variable {s : Session} {calls : List ScopeCall}

theorem keyed_start (application : String) (hooks : Hooks) (environment : Variables) :
    { start application hooks with environment := environment }.Keyed := by
  refine ⟨⟨?_, ?_, ?_⟩, ?_⟩ <;>
    simp [start, Arenas.Sound, Arenas.Keyed, Arenas.find?, Memo.Holds, Memo.empty, scope?]

theorem Keyed.afterCalls (hs : s.Settled) (hkeyed : s.Keyed) (h : ∀ c ∈ calls, c.IsPlain) :
    (s.afterCalls calls).Keyed := by
  induction calls generalizing s with
  | nil => exact hkeyed
  | cons c calls ih =>
    obtain ⟨hc, hcalls⟩ := List.forall_mem_cons.mp h
    exact ih (ScopeCall.keeps hs c hc).1 (ScopeCall.keyed hs hkeyed c hc) hcalls

/-- Between calls the domains of the key of every index signature inside a stored schema are unknown or among those of
strings and symbols, or the key is a name that came too late: some index signature with this key stands in a slot that
was not filled after all that the name leads to. -/
theorem index_keys_between_calls (application : String) (hooks : Hooks) (environment : Variables)
    (calls : List ScopeCall) (hplain : ∀ c ∈ calls, c.IsPlain) :
    let s := { start application hooks with environment := environment }.afterCalls calls
    ∀ id a (i : Nat) (t k : Schema), s.arena? id = some a → a.slots[i]? = some (some t) → t.Indexes k →
      (∃ d, (s.env (some id)).domains? k = .ok d ∧ ∀ D, d = some D → D.subset ObjectShape.keyDomains = true) ∨
      ∃ r, k = .ref r ∧ Arenas.Early s.arenas r := by
  intro s id a i t k ha ht hk
  have hstart := settled_start application hooks environment
  have hs : s.Settled := (hstart.afterCalls hplain).1
  have hkeyed : s.Keyed := (keyed_start application hooks environment).afterCalls hstart hplain
  rcases hkeyed.keys id a i t ha ht k hk with ⟨-, hfine⟩ | ⟨r, rfl, hearly | ⟨q, hq, hpending⟩⟩
  · exact Or.inl (hfine.domains _ rfl)
  · exact Or.inr ⟨r, rfl, hearly⟩
  · -- no name is left without its schema
    have hnamed := hq.named hkeyed.neat.arenas fun _ hp => hp.of_into (hkeyed.neat.arenas.indexes_into ha ht hk)
    obtain ⟨-, b, hb, hbq⟩ := hnamed
    obtain ⟨u, hu⟩ := hs.full _ b hb q hbq
    rw [Arenas.target_of_find hb, hu] at hpending
    simp at hpending

/-- An index key that was defined before the object. -/
theorem index_keys_between_calls_ordered :
    let calls : List ScopeCall := [.openScope none, .defineAll 1 [
      (.string "code", .list [.string "string", .string "|", .string "symbol"]),
      (.string "prices", .mapping [(.string "[code]", .string "number")])]]
    let s := (start "app" ⟨fun _ v => .value v, fun _ => .ok .null⟩).afterCalls calls
    let code : Ref := ⟨1, 0, "code"⟩
    (∀ c ∈ calls, c.IsPlain) ∧ ∃ a t, s.arena? 1 = some a ∧ a.slots[1]? = some (some t) ∧ t.Indexes (.ref code) ∧
      ((∃ d, (s.env (some 1)).domains? (.ref code) = .ok d ∧
        ∀ D, d = some D → D.subset ObjectShape.keyDomains = true) ∨
        ∃ r, Schema.ref code = .ref r ∧ Arenas.Early s.arenas r) := by
  intro calls s code
  have hplain : ∀ c ∈ calls, c.IsPlain := by decide +kernel
  have hstored : (s.arena? 1).bind (·.slots[1]?) =
      some (some (.object ⟨[], some ⟨.ref code, .keyword .number⟩, .ignore⟩)) := by rfl
  obtain ⟨a, ha, ht⟩ := Option.bind_eq_some_iff.mp hstored
  have hk := Schema.Indexes.here (o := ⟨[], some ⟨.ref code, .keyword .number⟩, .ignore⟩) rfl
  exact ⟨hplain, a, _, ha, ht, hk, index_keys_between_calls "app" _ [] calls hplain 1 a 1 _ _ ha ht hk⟩

/-- The key's definition comes after the object, which was not checked again. -/
example :
    let s := (start "app" ⟨fun _ v => .value v, fun _ => .ok .null⟩).afterCalls [.openScope none, .defineAll 1 [
      (.string "prices", .mapping [(.string "[code]", .string "number")]), (.string "code", .string "number")]]
    ((s.env (some 1)).domains? (.ref ⟨1, 1, "code"⟩)).toOption.map (·.map DomainSet.names) = some (some ["number"]) := by
  decide +kernel

end Session
end Schemata
