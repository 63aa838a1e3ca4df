import Schemata.Proofs.Algebra.Containment
import Schemata.Proofs.Validation.Membership

/-! The subset test on the schemas of a scope, against what validation accepts. -/
namespace Schemata

namespace Env

variable {env : Env} {arena : Arena} {config : Config} {a b : Schema} {v : Value}

/-- What is provably a subset accepts no more, through references too, on values that do not nest deeper than
references may be followed. -/
theorem accepts_of_isSubset (hin : env.arenas.find? (fun b => b.id == arena.id) = some arena)
    (hnames : arena.Complete False) (ha : a.Every (Schema.Fits (.over arena False)))
    (hb : b.Every (Schema.Fits (.over arena False))) (hv : v.Acyclic) (hdepth : v.depth < config.maxDepth)
    (hsub : env.isSubset a b = .ok true) (hacc : env.accepts config a v = .ok true) :
    env.accepts config b v = .ok true := by
  have hg := Env.grounded_over hin hnames
  have hready : (Dialect.over arena False).Follows → v.Acyclic ∧ v.depth ≤ config.maxDepth :=
    fun _ => ⟨hv, hdepth.le⟩
  have hmem := member_of_accepts hg False.elim ha hready hacc
  exact (accepts_decides hg False.elim hb hready False.elim).eq_true
    (member_of_isSubset hg ha hb hsub (fun _ => hv) hmem)

/-- A list of values of one keyword, linked through a name. -/
def chain (k : Keyword) (r : Ref) : Schema :=
  .object ⟨[⟨.name "value", .keyword k, .required⟩, ⟨.name "next", .ref r, .optional⟩], none, .ignore⟩

def wholeNumbers : Ref := ⟨1, 0, "whole"⟩

def numbers : Ref := ⟨1, 1, "any"⟩

def chains : Arena :=
  ⟨1, [some (chain .integer wholeNumbers), some (chain .number numbers)], [("whole", 0), ("any", 1)]⟩

theorem chain_fits {k : Keyword} {r : Ref} (hr : chains.ref? r.name = some r) :
    (chain k r).Every (Schema.Fits (.over chains False)) := by
  refine .intro (by simp [chain, Schema.Fits, ObjectShape.keys, Presence.default?]) ?_
  simp only [chain, Schema.parts, IndexSignature.parts, List.map_cons, List.map_nil, List.append_nil,
    List.forall_mem_cons, List.not_mem_nil, IsEmpty.forall_iff, implies_true, and_true]
  exact ⟨.intro trivial (by simp [Schema.parts]), .intro hr (by simp [Schema.parts])⟩

theorem chains_names {name : String} {r : Ref} (h : chains.ref? name = some r) : r = wholeNumbers ∨ r = numbers := by
  obtain ⟨handle, hhandle, rfl⟩ := Option.map_eq_some_iff.mp h
  simp only [chains, List.lookup_cons, List.lookup_nil] at hhandle
  split at hhandle
  · obtain rfl : name = "whole" := by simpa using ‹(name == "whole") = true›
    exact Or.inl (by simp [← Option.some.inj hhandle, wholeNumbers, chains])
  · split at hhandle
    · obtain rfl : name = "any" := by simpa using ‹(name == "any") = true›
      exact Or.inr (by simp [← Option.some.inj hhandle, numbers, chains])
    · simp at hhandle

theorem chains_complete : chains.Complete False := by
  intro name r hr
  rcases chains_names hr with rfl | rfl
  · exact ⟨chain .integer wholeNumbers, rfl, rfl, chain_fits rfl⟩
  · exact ⟨chain .number numbers, rfl, rfl, chain_fits rfl⟩

/-- Two linked numbers. -/
def linked : Value :=
  .mapping [(.string "value", .int 1), (.string "next", .mapping [(.string "value", .int 2)])]

theorem linked_acyclic : linked.Acyclic := by
  have leaf : ∀ n : Int, (Value.int n).Acyclic := fun n => Value.acyclic_of_children rfl (Or.inr rfl) nofun
  have last : (Value.mapping [(.string "value", .int 2)]).Acyclic :=
    Value.acyclic_of_children rfl (Or.inl rfl) (by simpa [Value.children] using leaf 2)
  exact Value.acyclic_of_children rfl (Or.inl rfl) (by simpa [linked, Value.children] using ⟨leaf 1, last⟩)

theorem accepts_of_isSubset_chains :
    let env : Env := ⟨bare.hooks, [chains], .ok Config.default⟩
    env.isSubset (.ref wholeNumbers) (.ref numbers) = .ok true ∧
      env.accepts Config.default (.ref wholeNumbers) linked = .ok true ∧
      env.accepts Config.default (.ref numbers) linked = .ok true := by
  intro env
  have hsub : env.isSubset (.ref wholeNumbers) (.ref numbers) = .ok true := rfl
  have hacc : env.accepts Config.default (.ref wholeNumbers) linked = .ok true := rfl
  have fits : ∀ r : Ref, chains.ref? r.name = some r →
      (Schema.ref r).Every (Schema.Fits (.over chains False)) := fun r hr => .intro hr (by simp [Schema.parts])
  exact ⟨hsub, hacc, accepts_of_isSubset rfl chains_complete (fits wholeNumbers rfl) (fits numbers rfl)
    linked_acyclic (by decide) hsub hacc⟩

/-- A pattern that cannot be read. -/
def unreadable : Schema := .union [.constrained (.keyword .string) [.pattern ⟨"[", 0, none⟩], .keyword .string]

/-- A union contains its plain branch, and yet fails on a value of it where another branch has a pattern that
cannot be read. -/
theorem unreadable_subset : bare.isSubset (.keyword .string) unreadable = .ok true ∧
    bare.accepts Config.default (.keyword .string) (.string "x") = .ok true ∧
    ∃ e, bare.accepts Config.default unreadable (.string "x") = .error e :=
  ⟨rfl, rfl, _, rfl⟩

end Env
end Schemata
