import Mathlib.Data.List.Perm.Subperm
import DeviceTwin.Proofs.Descriptor.Calls
import DeviceTwin.Proofs.Descriptor.Parts
import DeviceTwin.Proofs.Json.DistinctKeys
import DeviceTwin.Proofs.Json.Nesting

/-!
Reading ends for every table of definitions, cyclic ones included, at a depth that does not depend
on the number of levels allowed. A call either goes down into its descriptor or takes a name into
use that was not, and there are only so many names.
-/
namespace DeviceTwin

/-- The deepest nesting in a descriptor or a definition. -/
def Scope.nesting (scope : Scope) (descriptor : Json) : Nat :=
  max descriptor.nesting (Json.nestingOfMembers scope.definitions)

namespace Descriptor

variable {scope : Scope} {active : List String} {o : Outline} {key : String}
  {value descriptor child target : Json} {members : List (String × Json)} {limit level : Nat}

theorem nesting_lt_of_mem_inner (hm : (key, value) ∈ members) (hc : child ∈ inner o key value) :
    child.nesting < (Json.obj members).nesting :=
  Nat.lt_of_le_of_lt (within_of_mem_inner hc).nesting_le (Json.nesting_lt_obj hm)

/-- The names in use are distinct names of definitions. -/
structure NamesInUse (scope : Scope) (active : List String) : Prop where
  nodup : active.Nodup
  defined : ∀ name ∈ active, name ∈ scope.definitions.map Prod.fst

theorem namesInUse_nil : NamesInUse scope [] := ⟨List.nodup_nil, nofun⟩

theorem NamesInUse.cons {reference name : String} (h : NamesInUse scope active)
    (hf : Follows scope active o key value reference name target) :
    NamesInUse scope (name :: active) where
  nodup := List.nodup_cons.mpr ⟨hf.inactive, h.nodup⟩
  defined := by
    intro n hn
    rcases List.mem_cons.mp hn with rfl | hn
    · exact List.mem_map_of_mem (mem_of_lookup hf.defined)
    · exact h.defined n hn

theorem NamesInUse.length_le (h : NamesInUse scope active) :
    active.length ≤ scope.definitions.length := by
  have := (h.nodup.subperm h.defined).length_le
  rwa [List.length_map] at this

/-- How many calls can still follow below a call: each name that is not in use allows for one
descent into a definition. -/
def budget (scope : Scope) (limit : Nat) (active : List String) (descriptor : Json) : Nat :=
  (scope.definitions.length - active.length) * (limit + 1) + descriptor.nesting

theorem budget_inner (scope : Scope) (limit : Nat) (active : List String)
    (hm : (key, value) ∈ members) (hc : child ∈ inner o key value) :
    budget scope limit active child < budget scope limit active (.obj members) :=
  Nat.add_lt_add_left (nesting_lt_of_mem_inner hm hc) _

theorem budget_followed {reference name : String} (descriptor : Json) (h : NamesInUse scope active)
    (hlimit : Json.nestingOfMembers scope.definitions ≤ limit)
    (hf : Follows scope active o key value reference name target) :
    budget scope limit (name :: active) target < budget scope limit active descriptor := by
  have htarget := Json.nesting_le_nestingOfMembers (mem_of_lookup hf.defined)
  have hlength := (h.cons hf).length_le
  rw [List.length_cons] at hlength
  obtain ⟨free, hfree⟩ : ∃ free, scope.definitions.length - active.length = free + 1 :=
    ⟨scope.definitions.length - active.length - 1, by omega⟩
  rw [budget, budget, hfree, List.length_cons,
    show scope.definitions.length - (active.length + 1) = free by omega, Nat.add_mul]
  omega

/-- With as many levels as the budget no depth is exceeded. -/
theorem depthExceeded_not_mem_apply (hlimit : Json.nestingOfMembers scope.definitions ≤ limit)
    (h : NamesInUse scope active) (hbudget : budget scope limit active descriptor ≤ level)
    (cap : Nat) :
    .depthExceeded cap ∉ (apply scope level active descriptor o).violations := by
  induction level generalizing active descriptor o with
  | zero =>
    -- What is cut off at the last level would have a budget below zero.
    intro hmem
    rw [apply_eq_applyOver] at hmem
    obtain ⟨members, r, key, value, rfl, hv, ⟨child, hc, _⟩ | ⟨reference, name, target, hf, _⟩⟩ :=
      exists_of_depthExceeded hmem
    · have := budget_inner scope limit active hv.mem hc
      omega
    · have := budget_followed (.obj members) h hlimit hf
      omega
  | succ level ih =>
    intro hmem
    rw [apply_eq_applyOver] at hmem
    obtain ⟨members, r, key, value, rfl, hv, ⟨child, hc, hm⟩ | ⟨reference, name, target, hf, hm⟩⟩ :=
      exists_of_depthExceeded hmem
    · have := budget_inner scope limit active hv.mem hc
      exact ih h (by omega) ((mem_violations_complete rfl).mp hm)
    · have := budget_followed (.obj members) h hlimit hf
      rw [levelBelow, violations_takeReference_some hf] at hm
      have htarget : budget scope limit (name :: active) target ≤ level := by omega
      exact ih (h.cons hf) htarget hm

/-- Calls that a call leads to use distinct names of definitions, and what they add in depth they
lose in budget. -/
theorem Reached.namesInUse_and_depth {c d : Call}
    (hlimit : Json.nestingOfMembers scope.definitions ≤ limit) (h : NamesInUse scope c.active)
    (hr : Reached scope c d) :
    NamesInUse scope d.active ∧
      d.depth + budget scope limit d.active d.descriptor ≤
        c.depth + budget scope limit c.active c.descriptor := by
  induction hr with
  | refl => exact ⟨h, Nat.le_refl _⟩
  | tail _ hm ih =>
    obtain ⟨hnames, hdepth⟩ := ih
    cases hm with
    | @nested depth active members o r key value child _ hv hc =>
      have := budget_inner scope limit active hv.mem hc
      exact ⟨hnames, by simp only at hdepth ⊢; omega⟩
    | @followed depth active members o r key value reference name target _ hv hf =>
      have := budget_followed (.obj members) hnames hlimit hf
      exact ⟨hnames.cons hf, by simp only at this hdepth ⊢; omega⟩

/-- A depth that no reading exceeds, whatever number of levels it is allowed. -/
def depthBound (scope : Scope) (descriptor : Json) : Nat :=
  (scope.definitions.length + 1) * (scope.nesting descriptor + 1)

theorem budget_root_le (scope : Scope) (descriptor : Json) :
    budget scope (scope.nesting descriptor) [] descriptor ≤ depthBound scope descriptor := by
  have : descriptor.nesting ≤ scope.nesting descriptor := Nat.le_max_left ..
  simp only [budget, depthBound, List.length_nil, Nat.sub_zero, Nat.add_mul, Nat.one_mul]
  omega

theorem nestingOfMembers_le_nesting (scope : Scope) (descriptor : Json) :
    Json.nestingOfMembers scope.definitions ≤ scope.nesting descriptor := Nat.le_max_right ..

theorem depthExceeded_not_mem_read (h : depthBound scope descriptor ≤ level) (cap : Nat) :
    .depthExceeded cap ∉ (apply scope level [] descriptor {}).violations :=
  depthExceeded_not_mem_apply (nestingOfMembers_le_nesting scope descriptor) namesInUse_nil
    (Nat.le_trans (budget_root_le scope descriptor) h) cap

/-- Levels beyond the bound are never used. -/
theorem apply_min_depthBound (scope : Scope) (descriptor : Json) (level : Nat) :
    apply scope (min level (depthBound scope descriptor)) [] descriptor {} =
      apply scope level [] descriptor {} := by
  rcases Nat.le_total level (depthBound scope descriptor) with h | h
  · rw [Nat.min_eq_left h]
  · rw [Nat.min_eq_right h]
    exact (apply_eq_of_depth_kept rfl h
      (depthExceeded_not_mem_read (Nat.le_refl (depthBound scope descriptor)))).symm

/-- Reading ends for every table of definitions, descriptor and number of levels, and needs no more
levels than the bound. On the way the names in use are distinct names of definitions, and no call is
deeper than the bound. The shape is at most one step higher than there are levels; where a
descriptor is cut off, and at the bottom of a shape of that height, there is an unset leaf. -/
theorem read_terminates (scope : Scope) (descriptor : Json) :
    (∃ n, read scope descriptor = complete n ∧
      (∀ n', Serves scope (.root descriptor) n' ↔ n' = n) ∧
      apply scope (min scope.maxDepth (depthBound scope descriptor)) [] descriptor {} = n) ∧
    (∀ c, Reached scope (.root descriptor) c →
      c.active.Nodup ∧ (∀ name ∈ c.active, name ∈ scope.definitions.map Prod.fst) ∧
      c.depth ≤ (scope.definitions.length + 1) * (scope.nesting descriptor + 1)) ∧
    (∀ c d, Makes scope (levelBelow scope (scope.maxDepth - c.depth)) c d →
      scope.maxDepth < d.depth →
      readNested scope (levelBelow scope (scope.maxDepth - c.depth)) d.active d.descriptor =
        .refused {} (.depthExceeded scope.maxDepth)) ∧
    (read scope descriptor).value.height ≤ scope.maxDepth + 1 ∧
    ∀ node ∈ (read scope descriptor).value.nodesAt (scope.maxDepth + 1), node = {} := by
  refine ⟨⟨apply scope scope.maxDepth [] descriptor {}, rfl, fun n' => ?_,
    apply_min_depthBound scope descriptor _⟩, fun c hc => ?_,
    fun _ d hm hd => hm.readNested_cut hd d.descriptor,
    (unsetAt_read scope descriptor).height_le, unsetAt_read scope descriptor⟩
  · exact serves_iff (Nat.zero_le _)
  · obtain ⟨hnames, hdepth⟩ := hc.namesInUse_and_depth
      (nestingOfMembers_le_nesting scope descriptor) namesInUse_nil
    have hroot := budget_root_le scope descriptor
    refine ⟨hnames.nodup, hnames.defined, ?_⟩
    simp only [Call.root, depthBound] at hdepth hroot
    omega

end Descriptor
end DeviceTwin
