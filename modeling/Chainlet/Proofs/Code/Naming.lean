import Chainlet.Proofs.Code.Draft
import Chainlet.Proofs.Code.Units

/-!
# Proofs/Code/Naming — options name things and decide nothing

A unit has a draft as its code has one; a function takes the local of the options unless a parameter is
named like it (`Options.localBeside`).  The header of a module is made of the options alone.  So whatever
the options are, **a program is refused for one and the same reason, or its module is one and the same list
of drafts with the names of the options put in** (`Program.module_named`).
-/

namespace Chainlet

/-- The local in which a function keeps addresses: that of the options, unless a parameter has its name,
and then the name that the search beside the parameters' names ends with. -/
def Options.localBeside (o : Options) (parameters : List (Option String)) : String :=
  if some o.scratch ∈ parameters then freshName o.scratch (parameters.filterMap id) else o.scratch

/-- A unit with the names of the options left open. -/
inductive UnitDraft where
  | code (body : List Draft)
  | function (name : String) (parameters : List (Option String)) (body : List Draft)

/-- The unit of a draft with the names of some options.  A function declares the local it uses. -/
def UnitDraft.fill (o : Options) : UnitDraft → ModuleUnit
  | code body => .code (Draft.fillAll o body)
  | function name parameters body =>
    .function ⟨name, parameters, [o.localBeside parameters],
      Draft.fillAll (o.withScratch (o.localBeside parameters)) body⟩

/-- The module of drafts with the names of some options. -/
def Module.ofDrafts (o : Options) (units : List UnitDraft) : Module :=
  ⟨o.memoryPages, o.heapGlobal, o.heapBase, units.map (UnitDraft.fill o)⟩

/-! ## Functions -/

theorem Definition.scratch_eq (o : Options) (d : Definition) :
    d.scratch o = o.localBeside (d.parameters.map Parameter.name?) := by
  rw [scratch, Options.localBeside, filterMap_parameters]
  split
  · rfl
  · next hfree => exact freshName_of_not_mem fun hmem => hfree (some_mem_parameters.2 hmem)

/-- The body of a definition is drafted with the local of the options left open, whatever local the
function takes. -/
theorem Definition.function_uniform (d : Definition) :
    Uniform (fun o u => UnitDraft.fill o u) fun o => do return .function (← d.function o) := by
  have hfunction : ∀ o, d.function o = (do
      let body ← d.bodyCode o
      pure ⟨d.name.name, d.parameters.map Parameter.name?, [d.scratch o], body⟩) :=
    fun o => d.function_eq o
  cases hbinding : d.binding with
  | none =>
    refine uniform_ok (.function d.name.name (d.parameters.map Parameter.name?) []) fun o => ?_
    rw [hfunction, bodyCode, hbinding, UnitDraft.fill, Draft.fillAll_nil, ← scratch_eq]
    rfl
  | some b =>
    have hbodyCode : ∀ o, d.bodyCode o = b.body.code (o.withScratch (d.scratch o)) := by
      intro o
      rw [bodyCode, hbinding]
    obtain ⟨refusal, hbody⟩ | ⟨a, hbody⟩ := b.body.drafted
    · refine uniform_error refusal fun o => ?_
      rw [hfunction, hbodyCode, show b.body.code _ = _ from hbody (o.withScratch (d.scratch o))]
      rfl
    · refine uniform_ok (.function d.name.name (d.parameters.map Parameter.name?) a) fun o => ?_
      rw [hfunction, hbodyCode, show b.body.code _ = _ from hbody (o.withScratch (d.scratch o)),
        UnitDraft.fill, ← scratch_eq]
      rfl

/-! ## Modules -/

/-- An item that is no definition has a draft. -/
theorem Item.unit_uniform (i : Item) :
    Uniform (fun o u => Option.map (UnitDraft.fill o) u) fun o =>
      (do return some (.code (← i.code o))) :=
  i.drafted.bind fun a => uniform_ok (some (.code a)) fun _ => rfl

theorem Element.unit_uniform (e : Element) :
    Uniform (fun o u => Option.map (UnitDraft.fill o) u) fun o => e.unit? o := by
  match e with
  | .docComment d => exact uniform_ok none fun _ => rfl
  | .item (.expression value) => exact (Item.expression value).unit_uniform
  | .item (.statement (.assignment target value span)) =>
    exact (Item.statement (.assignment target value span)).unit_uniform
  | .item (.statement (.definition d)) =>
    have hunit : ∀ o, Element.unit? o (.item (.statement (.definition d)))
        = ((do return .function (← d.function o) : Coded ModuleUnit) >>= fun u => pure (some u)) := by
      intro o
      rw [unit?]
      cases d.function o <;> rfl
    simp only [hunit]
    exact d.function_uniform.bind fun a => uniform_ok (some a) fun _ => rfl

theorem unitsOf_uniform (es : List Element) :
    Uniform (fun o (us : List UnitDraft) => us.map (UnitDraft.fill o)) fun o => unitsOf o es := by
  induction es with
  | nil => exact uniform_ok [] fun _ => rfl
  | cons e es ih =>
    simp only [unitsOf]
    refine e.unit_uniform.bind fun u => ih.bind fun us => uniform_ok (u.toList ++ us) fun o => ?_
    rw [List.map_append, ← Option.toList_map]
    rfl

end Chainlet
