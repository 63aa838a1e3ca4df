import Schemata.Proofs.Scope.Calls
import Schemata.Proofs.Scope.Lookup
import Schemata.Proofs.Scope.Trees

/-! What reading a definition and following a path may stop with, in scopes that were filled with definitions of plain
data. Every call on the scopes keeps the schemas of the session usable. -/
namespace Schemata

namespace ScopeCall

/-- The definitions are plain data with sound constraints. -/
def IsTree : ScopeCall → Prop
  | define _ _ definition => definition.Tree
  | defineAll _ definitions => ∀ d ∈ definitions, d.2.Tree
  | validate _ _ definition _ => definition.Tree
  | _ => True

/-- A definition quotes data that may change. -/
def Quotes : ScopeCall → Prop
  | define _ _ definition => definition.Quotes
  | defineAll _ definitions => ∃ d ∈ definitions, d.2.Quotes
  | validate _ _ definition _ => definition.Quotes
  | _ => False

end ScopeCall

variable {quoted : Prop} {s : Session}

namespace Arena

/-- All schemas in the slots can be used. -/
def Usable (quoted : Prop) (a : Arena) : Prop := ∀ t, some t ∈ a.slots → t.Usable quoted

variable {a : Arena}

theorem Usable.allocate (h : a.Usable quoted) (name : String) : (a.allocate name).2.Usable quoted := fun t ht => by
  rcases List.mem_append.mp ht with ht | ht
  · exact h t ht
  · simp at ht

theorem Usable.fill (h : a.Usable quoted) (r : Ref) {t : Schema} (ht : t.Usable quoted) :
    (a.fill r t).Usable quoted := fun u hu => by
  rcases List.mem_or_eq_of_mem_set hu with hu | hu
  · exact h u hu
  · exact Option.some.inj hu ▸ ht

theorem Usable.discard (h : a.Usable quoted) (name : String) : (a.discard name).Usable quoted := by
  unfold Arena.discard
  split
  · intro t ht
    rcases List.mem_or_eq_of_mem_set ht with ht | ht
    · exact h t ht
    · cases ht
  · exact h

theorem Usable.discardAll (h : a.Usable quoted) (names : List String) : (names.foldl Arena.discard a).Usable quoted := by
  induction names generalizing a with
  | nil => exact h
  | cons name names ih => exact ih (h.discard name)

end Arena

namespace Session

theorem Usable.arena {id : Nat} {a : Arena} (h : s.Usable quoted) (ha : s.arena? id = some a) : a.Usable quoted :=
  h.stored a (List.mem_of_find?_eq_some ha)

theorem Usable.setArena (h : s.Usable quoted) {a : Arena} (ha : a.Usable quoted) : (s.setArena a).Usable quoted := by
  refine ⟨fun b hb => ?_, h.memo, h.waiting⟩
  obtain ⟨c, hc, rfl⟩ := List.mem_map.mp hb
  split_ifs
  · exact ha
  · exact h.stored c hc

theorem Usable.opened (h : s.Usable quoted) (c : Config) : (s.opened c).Usable quoted := by
  refine ⟨List.forall_mem_append.mpr ⟨h.stored, ?_⟩, h.memo, List.forall_mem_append.mpr ⟨h.waiting, ?_⟩⟩
  · simp [Arena.empty]
  · simp

theorem usable_start (application : String) (hooks : Hooks) (environment : Variables) :
    { start application hooks with environment := environment }.Usable quoted := by
  refine ⟨?_, ?_, ?_⟩ <;> simp [start, Memo.Holds, Memo.empty]

end Session

namespace Engine

theorem updateArena_usable (id : Nat) {f : Arena → Arena} (hf : ∀ a : Arena, a.Usable quoted → (f a).Usable quoted) :
    Runs (Session.Usable quoted) (updateArena id f) (fun _ => True) fun _ => True := by
  refine .modify fun s hs => ?_
  split
  · rename_i a ha
    exact hs.setArena (hf a (hs.arena ha))
  · exact hs

theorem setWaiting_usable (id : Nat) {waiting : Option (List DeferredCheck)}
    (h : ∀ checks, waiting = some checks → ∀ c ∈ checks, c.Usable quoted) :
    Runs (Session.Usable quoted) (setWaiting id waiting) (fun _ => True) fun _ => True := by
  refine .modify fun s hs => ?_
  split
  · exact hs.setScope h
  · exact hs

theorem freeze_usable (id : Nat) : Runs (Session.Usable quoted) (freeze id) (fun _ => True) fun _ => True := by
  refine .modify fun s hs => ?_
  split
  · rename_i sc hsc
    obtain ⟨e, he, rfl⟩ := Session.mem_of_scope? hsc
    exact hs.setScope (hs.waiting e he)
  · exact hs

theorem allocateAll_usable (id : Nat) (names : List String) :
    Runs (Session.Usable quoted) (allocateAll id names) (fun _ => True) fun _ => True := by
  induction names with
  | nil => exact .pure trivial
  | cons name names ih =>
    refine Runs.bind .get fun s hs => ?_
    cases ha : s.arena? id with
    | none => exact .pure trivial
    | some a =>
      refine Runs.bind (.set (hs.setArena ((hs.arena ha).allocate name))) fun _ _ => ?_
      exact ih.bind fun _ _ => .pure trivial

/-- Reading leaves a usable session, whatever comes of it. -/
theorem parse_leaves (scope : Option Nat) (given : Option Config) {d : Value} (hd : d.Tree) (hq : d.Quotes → quoted) :
    Runs (Session.Usable quoted) (parse scope given d) (Schema.Usable quoted) fun _ => True :=
  Runs.usable fun s₀ =>
    have anything : s₀.Foresees True True scope := ⟨fun _ _ => trivial, fun _ => trivial⟩
    (parse_usable anything given hd hq).mono (fun _ h => h) fun _ _ => trivial

theorem config_leaves (scope : Option Nat) (given : Option Config) :
    Runs (Session.Usable quoted) (config scope given) (fun _ => True) fun _ => True := by
  refine fun s hs => ⟨?_, ?_⟩
  · cases ((config scope given).run s).1 <;> trivial
  · cases given with
    | some c => exact hs
    | none =>
      have hrun : (config scope none).run s = (s.configOf scope, s) := run_lift _ s
      rwa [hrun]

theorem fillAll_usable (id : Nat) {batch : List (Ref × Value)} (hbatch : ∀ e ∈ batch, e.2.Tree)
    (hq : ∀ e ∈ batch, e.2.Quotes → quoted) :
    Runs (Session.Usable quoted) (fillAll id batch) (fun _ => True) fun _ => True := by
  induction batch with
  | nil => exact .pure trivial
  | cons e batch ih =>
    obtain ⟨he, hbatch⟩ := List.forall_mem_cons.mp hbatch
    obtain ⟨hqe, hq⟩ := List.forall_mem_cons.mp hq
    refine (parse_leaves (some id) none he hqe).bind fun t ht => ?_
    exact (updateArena_usable id fun a ha => ha.fill e.1 ht).bind fun _ _ => ih hbatch hq

theorem completeBatch_usable (id : Nat) {batch : List (Ref × Value)} (hbatch : ∀ e ∈ batch, e.2.Tree)
    (hq : ∀ e ∈ batch, e.2.Quotes → quoted) :
    Runs (Session.Usable quoted) (completeBatch id batch) (fun _ => True) fun _ => True := by
  refine (setWaiting_usable id (by simp)).bind fun _ _ => (fillAll_usable id hbatch hq).bind fun _ _ => ?_
  refine Runs.bind .get fun s hs => (setWaiting_usable id (by simp)).bind fun _ _ => Runs.usable fun s₀ => ?_
  have anything : s₀.Sets True (some id) := fun _ _ => trivial
  refine Runs.mono (Q := Fault.Foreseen quoted True True) (runAllDeferred_usable anything ?_) (fun _ h => h)
    fun _ _ => trivial
  cases hsc : s.scope? id with
  | none => simp
  | some sc =>
    obtain ⟨e, he, rfl⟩ := Session.mem_of_scope? hsc
    cases hwaiting : e.2.waiting with
    | none => simp [hwaiting]
    | some checks => simpa [hwaiting] using hs.waiting e he checks hwaiting

theorem defineAll_usable (id : Nat) {definitions : List (Value × Value)} (htrees : ∀ d ∈ definitions, d.2.Tree)
    (hq : ∀ d ∈ definitions, d.2.Quotes → quoted) :
    Runs (Session.Usable quoted) (defineAll id definitions) (fun _ => True) fun _ => True := by
  unfold defineAll
  refine Runs.bind .get fun s _ => ?_
  split
  · dsimp only
    split
    · exact Runs.bind (P := fun _ => False) (.throw trivial) fun _ h => h.elim
    · refine Runs.bind Runs.lifted fun names _ => (allocateAll_usable id names).bind fun refs _ => ?_
      have batch : ∀ e ∈ refs.zip (definitions.map (·.2)), ∃ d ∈ definitions, d.2 = e.2 := fun e he =>
        List.mem_map.mp (List.of_mem_zip he).2
      refine Runs.bind ((completeBatch_usable id (fun e he => ?_) fun e he => ?_).tryCatch fun e _ => ?_)
        fun _ _ => .pure trivial
      · obtain ⟨d, hd, heq⟩ := batch e he
        exact heq ▸ htrees d hd
      · obtain ⟨d, hd, heq⟩ := batch e he
        exact heq ▸ hq d hd
      · exact (updateArena_usable id fun a ha => ha.discardAll names).bind fun _ _ =>
          (setWaiting_usable id (by simp)).bind fun _ _ => .throw trivial
  · exact .pure trivial

theorem validate_usable (id : Nat) (given : Option Config) {d : Value} (hd : d.Tree) (hq : d.Quotes → quoted) (v : Value) :
    Runs (Session.Usable quoted) (validate (some id) given d v) (fun _ => True) fun _ => True := by
  unfold validate schemaOf
  rw [hd.ofData?_eq_none.1]
  refine (parse_leaves (some id) given hd hq).bind fun t _ => (freeze_usable id).bind fun _ _ => ?_
  refine (config_leaves (some id) given).bind fun c _ => (Runs.env _).bind fun _ _ => ?_
  exact Runs.lifted.mono (fun _ _ => trivial) fun _ h => h

theorem openScope_usable (given : Option Config) :
    Runs (Session.Usable quoted) (openScope given) (fun _ => True) fun _ => True :=
  (config_leaves none given).bind fun c _ => Runs.bind .get fun _ hs => Runs.bind (.set (hs.opened c)) fun _ _ =>
    .pure trivial

end Engine

namespace ScopeCall

theorem usable {call : ScopeCall} (htree : call.IsTree) (hq : call.Quotes → quoted) :
    Engine.Runs (Session.Usable quoted) call.run (fun _ => True) fun _ => True := by
  cases call with
  | openScope given => exact Engine.discard_runs (Engine.openScope_usable given)
  | define id name d =>
    exact Engine.discard_runs (Engine.defineAll_usable id (List.forall_mem_singleton.mpr htree)
      (List.forall_mem_singleton.mpr hq))
  | defineAll id definitions =>
    exact Engine.discard_runs (Engine.defineAll_usable id htree fun d hd hquotes => hq ⟨d, hd, hquotes⟩)
  | freeze id => exact Engine.freeze_usable id
  | validate id given d v => exact Engine.discard_runs (Engine.validate_usable id given htree hq v)

end ScopeCall

namespace Session

theorem Usable.afterCalls {calls : List ScopeCall} (hs : s.Usable quoted) (htrees : ∀ c ∈ calls, c.IsTree)
    (hq : ∀ c ∈ calls, c.Quotes → quoted) : (s.afterCalls calls).Usable quoted := by
  induction calls generalizing s with
  | nil => exact hs
  | cons c calls ih =>
    obtain ⟨hc, htrees⟩ := List.forall_mem_cons.mp htrees
    obtain ⟨hqc, hq⟩ := List.forall_mem_cons.mp hq
    exact ih (ScopeCall.usable hc hqc s hs).2 htrees hq

/-- After any calls with definitions of plain data, such a definition is read in a scope with an error of schemas at
worst, unless it or a definition before it quotes data that may change: then some of it may be wanted as part of a key.
In the schema that was read a path of texts, symbols and numbers is followed with such errors at worst, unless a text of
the path has digits but writes no number, or trial runs have no configuration. That a name ahead is not looked behind is
no error but where names lead back to themselves. -/
theorem errors_foreseen (application : String) (hooks : Hooks) (environment : Variables) {calls : List ScopeCall}
    (htrees : ∀ c ∈ calls, c.IsTree) {id : Nat} {sc : Scope} {d : Value} (hd : d.Tree) :
    let s := { start application hooks with environment := environment }.afterCalls calls
    let quoted := d.Quotes ∨ ∃ c ∈ calls, c.Quotes
    let looped := (s.env (some id)).Loops
    s.scope? id = some sc → ∀ given, Ends ((Engine.parse (some id) given d).run s).1
      (fun t => ∀ path : List Value, (∀ key ∈ path, key.Raw) →
        Ends ((Engine.select (some id) t path).run ((Engine.parse (some id) given d).run s).2).1 (fun _ => True) fun e =>
          e.Foreseen quoted (∃ f, s.ambient = .error f) looped ∨
            ∃ text, Value.string text ∈ path ∧ Engine.Unreadable text)
      fun e => e.Foreseen quoted False looped := by
  intro s quoted looped hsc given
  have husable : s.Usable quoted := (usable_start application hooks environment).afterCalls htrees fun c hc hquotes =>
    Or.inr ⟨c, hc, hquotes⟩
  have hset : s.Sets False (some id) := by
    intro e he
    simp [configOf, hsc] at he
  have hnone : s.Sets (∃ f, s.ambient = .error f) none := fun e he => ⟨e, he⟩
  have hforesees : s.Foresees False looped (some id) := ⟨hset, fun h => h⟩
  obtain ⟨hends, hnear⟩ := Engine.parse_usable hforesees given hd Or.inl s ⟨fun _ => rfl, husable⟩
  refine hends.mono (fun t ht path hpath => ?_) fun _ h => h
  exact (((Engine.select_usable hnone (fun h => h) hpath ht) _ hnear).1).mono (fun _ _ => trivial) fun _ h => h

/-- Where nothing that may change is quoted and the settings are in order, all errors are those of schemas, apart from
texts of digits that write no number. -/
theorem errors_foreseen_pair :
    let hooks : Hooks := ⟨fun _ v => .value v, fun _ => .ok .null⟩
    let calls : List ScopeCall := [.openScope none, .define 1 (.string "nums") (.string "number[]")]
    let s := (start "app" hooks).afterCalls calls
    let d : Value := .list [.string "nums", .string "number"]
    let parsed := (Engine.parse (some 1) none d).run s
    (∀ c ∈ calls, c.IsTree) ∧ d.Tree ∧ (s.scope? 1).isSome = true ∧
      Ends parsed.1 (fun t => ∀ path : List Value, (∀ key ∈ path, key.Raw) →
        Ends ((Engine.select (some 1) t path).run parsed.2).1 (fun _ => True) fun e =>
          (∃ x, e = .schema x) ∨ ∃ text, Value.string text ∈ path ∧ Engine.Unreadable text)
        fun e => ∃ x, e = .schema x := by
  intro hooks calls s d parsed
  have text : ∀ {text : String}, ¬ (Value.string text).Quotes := by
    rintro text (⟨h, -⟩ | ⟨h, -⟩ | ⟨h, -⟩) <;> cases h
  have htrees : ∀ c ∈ calls, c.IsTree := by simp [calls, ScopeCall.IsTree, Value.Tree.string]
  have hd : d.Tree := .list (by simp [Value.Tree.string])
  have hscope : (s.scope? 1).isSome = true := by decide +kernel
  have hambient : s.ambient.toBool = true := by decide +kernel
  obtain ⟨sc, hsc⟩ := Option.isSome_iff_exists.mp hscope
  have pair : ¬ (Value.list [.string "nums", .string "number"]).Quotes := by
    intro h
    cases h with
    | literal hitems hmark _ _ =>
      cases hitems
      exact absurd hmark (by decide)
    | constraint hc _ => cases hc
    | item hitems hv hquotes =>
      cases hitems
      obtain rfl | rfl : _ ∨ _ := by simpa using hv
      · exact text hquotes
      · exact text hquotes
  have hquoted : ¬ (d.Quotes ∨ ∃ c ∈ calls, c.Quotes) := by
    rintro (hquotes | ⟨c, hc, hquotes⟩)
    · exact pair hquotes
    · obtain rfl | rfl : _ ∨ _ := by simpa [calls] using hc
      · exact hquotes
      · exact text hquotes
  have hset : ¬ ∃ f, s.ambient = .error f := by
    rintro ⟨f, hf⟩
    simp [hf, Except.toBool] at hambient
  have schema : ∀ {e : Fault} {unset looped : Prop}, ¬ unset →
      e.Foreseen (d.Quotes ∨ ∃ c ∈ calls, c.Quotes) unset looped → ∃ x, e = .schema x := by
    intro e unset looped hunset he
    cases e with
    | schema x => exact ⟨x, rfl⟩
    | unhashable _ => exact absurd he hquoted
    | config _ => exact absurd he hunset
    | _ => exact he.elim
  refine ⟨htrees, hd, hscope, (errors_foreseen "app" hooks [] htrees hd hsc none).mono ?_ fun e => schema id⟩
  exact fun t ht path hpath => (ht path hpath).mono (fun _ h => h) fun e he => he.imp_left (schema hset)

/-- The literal and the name are both wanted as a key. -/
example :
    let s := (start "app" ⟨fun _ v => .value v, fun _ => .ok .null⟩).afterCalls
      [.openScope none, .define 1 (.string "nums") (.string "number[]")]
    let d : Value := .list [.list [.string "===", .list [.int 1]], .string "&", .string "nums"]
    (((Engine.parse (some 1) none d).run s).1 matches .error (.unhashable "list")) = true := by decide +kernel

/-- The superscript is a digit without a place value. -/
example :
    let s := start "app" ⟨fun _ v => .value v, fun _ => .ok .null⟩
    let t : Schema := .tuple [⟨.leading, .keyword .string⟩]
    (((Engine.select none t [.string "²"]).run s).1 matches .error (.invalidInteger _)) = true := by decide +kernel

end Session
end Schemata
