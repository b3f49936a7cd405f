import Chainlet.Module.OfProgram
import Chainlet.Proofs.Code.Emits
import Chainlet.Proofs.Code.Fresh

/-!
# Proofs/Code/Units — the units of a module and the elements they are made of

Every element that is no comment has a unit of its own, whose instructions come from what occurs in
the element (`Element.unit_emits`).  Code at module scope keeps addresses in the local of the options, a
function in one that it declares and, where the search for a name ends, no parameter is named like.
-/

namespace Chainlet

variable {o : Options}

/-- The units of a module are those of its elements. -/
theorem mem_unitsOf_iff {es : List Element} {units : List ModuleUnit} (h : unitsOf o es = .ok units)
    (u : ModuleUnit) : u ∈ units ↔ ∃ e ∈ es, e.unit? o = .ok (some u) := by
  induction es generalizing units with
  | nil => cases h; simp
  | cons e es ih =>
    obtain ⟨unit?, hunit, h⟩ := bind_eq_ok.1 h
    obtain ⟨rest, hrest, h⟩ := bind_eq_ok.1 h
    cases h
    rw [List.mem_append, ih hrest, Option.mem_toList, List.exists_mem_cons_iff, hunit,
      Except.ok.injEq]

/-- An element without a unit is a comment. -/
theorem Element.exists_unit {es : List Element} {units : List ModuleUnit}
    (h : unitsOf o es = .ok units) {e : Element} (he : e ∈ es) :
    (∃ comment, e = .docComment comment) ∨ ∃ u ∈ units, e.unit? o = .ok (some u) := by
  have hunit : ∃ unit?, e.unit? o = .ok unit? := by
    induction es generalizing units with
    | nil => cases he
    | cons e' es ih =>
      obtain ⟨unit?, hunit, h⟩ := bind_eq_ok.1 h
      obtain ⟨rest, hrest, -⟩ := bind_eq_ok.1 h
      obtain rfl | he := List.mem_cons.1 he
      · exact ⟨unit?, hunit⟩
      · exact ih hrest he
  obtain ⟨unit?, hunit⟩ := hunit
  cases unit? with
  | some u => exact .inr ⟨u, (mem_unitsOf_iff h u).2 ⟨e, he, hunit⟩, hunit⟩
  | none =>
    left
    unfold Element.unit? at hunit
    split at hunit
    · next comment => exact ⟨comment, rfl⟩
    · obtain ⟨f, -, hunit⟩ := bind_eq_ok.1 hunit
      cases hunit
    · obtain ⟨code, -, hunit⟩ := bind_eq_ok.1 hunit
      cases hunit

/-- The local in which a unit keeps addresses: that of the options at module scope, in a function the
only one it declares.  No parameter has its name, if the search for a name ends, as it does beside
at most `2 ^ 32` named parameters. -/
def ModuleUnit.UsesLocal (o : Options) (scratch : String) : ModuleUnit → Prop
  | .code _ => scratch = o.scratch
  | .function f => f.locals = [scratch] ∧
      (NameSearch.Ends o.scratch (f.parameters.filterMap id) → some scratch ∉ f.parameters)

/-- The names of the parameters of a function are those of its definition. -/
theorem Definition.filterMap_parameters (d : Definition) :
    (d.parameters.map Parameter.name?).filterMap id = d.parameterNames := by
  rw [List.filterMap_map, parameterNames, Function.id_comp]

theorem Definition.some_mem_parameters {d : Definition} {name : String} :
    some name ∈ d.parameters.map Parameter.name? ↔ name ∈ d.parameterNames := by
  rw [parameterNames, List.mem_filterMap, List.mem_map]

/-- The code of the body of a definition. -/
def Definition.bodyCode (o : Options) (d : Definition) : Coded (List Instr) :=
  match d.binding with
  | none => pure []
  | some b => b.body.code (o.withScratch (d.scratch o))

theorem Definition.function_eq (o : Options) (d : Definition) : d.function o = (do
    let body ← d.bodyCode o
    pure ⟨d.name.name, d.parameters.map Parameter.name?, [d.scratch o], body⟩) := by
  rw [function, bodyCode]
  cases d.binding <;> rfl

/-- The body of a definition comes from what occurs in it, with the local of the definition. -/
theorem Definition.function_emits {d : Definition} {f : Function} (h : d.function o = .ok f) :
    Emits (o.withScratch (d.scratch o)) d.constructs f.body := by
  rw [function_eq] at h
  obtain ⟨body, hbody, h⟩ := bind_eq_ok.1 h
  cases h
  obtain ⟨keyword, name, generics, parameters, binding, span⟩ := d
  rw [Definition.constructs]
  cases binding with
  | none =>
    cases hbody
    rw [bindingConstructs]
    exact .nil
  | some b =>
    obtain ⟨body, span⟩ := b
    rw [bindingConstructs]
    exact body.emits hbody

theorem Definition.function_usesLocal {d : Definition} {f : Function} (h : d.function o = .ok f) :
    (ModuleUnit.function f).UsesLocal o (d.scratch o) := by
  rw [function_eq] at h
  obtain ⟨body, -, h⟩ := bind_eq_ok.1 h
  cases h
  refine ⟨rfl, fun hends hmem => ?_⟩
  rw [filterMap_parameters] at hends
  exact freshName_not_mem hends (some_mem_parameters.1 hmem)

/-- **The instructions of a unit come from what occurs in its element**, with the local that the unit
uses. -/
theorem Element.unit_emits {e : Element} {u : ModuleUnit} (h : e.unit? o = .ok (some u)) :
    ∃ scratch, u.UsesLocal o scratch ∧ Emits (o.withScratch scratch) e.constructs u.instructions := by
  unfold Element.unit? at h
  split at h
  · cases h
  · next d =>
    obtain ⟨f, hf, h⟩ := bind_eq_ok.1 h
    cases h
    exact ⟨d.scratch o, Definition.function_usesLocal hf, Definition.function_emits hf⟩
  · next i hi =>
    obtain ⟨code, hcode, h⟩ := bind_eq_ok.1 h
    cases h
    refine ⟨o.scratch, rfl, ?_⟩
    rw [Element.constructs]
    · exact i.emits hcode
    · exact hi

end Chainlet
