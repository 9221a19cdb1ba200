import DeviceTwin.Proofs.Descriptor.Calls

/-!
Reading under two caps on the depth. The readings are the same until the smaller cap cuts a call
off, and it does so exactly if the reading under the larger cap goes deeper.
-/
namespace DeviceTwin

/-- The same definitions under a cap that is no smaller. -/
structure Scope.Extends (scope' scope : Scope) : Prop where
  definitions : scope'.definitions = scope.definitions
  maxDepth : scope.maxDepth ≤ scope'.maxDepth

namespace Descriptor

variable {scope scope' : Scope} {c d : Call} {descriptor value : Json}
  {depth : Nat} {active : List String} {members : List (String × Json)} {o r : Outline}
  {key : String}

/-- A call at an allowed depth whose service cuts nothing off. -/
structure Kept (scope : Scope) (c : Call) : Prop where
  depth_le : c.depth ≤ scope.maxDepth
  not_exceeded : ∀ cap, .depthExceeded cap ∉ (serve scope c).violations

theorem Kept.serve_eq (h : Kept scope c) (hext : Scope.Extends scope' scope) :
    serve scope' c = serve scope c :=
  apply_eq_of_depth_kept hext.definitions (Nat.sub_le_sub_right hext.maxDepth _) h.not_exceeded

theorem Kept.takeMember_eq (h : Kept scope ⟨depth, active, .obj members, o⟩)
    (hext : Scope.Extends scope' scope)
    (hv : Visits (takeMember scope (levelBelow scope (scope.maxDepth - depth)) active) o members
      r key value) :
    (∀ cap, .depthExceeded cap ∉
      (takeMember scope (levelBelow scope (scope.maxDepth - depth)) active r key
        value).violations) ∧
    takeMember scope' (levelBelow scope' (scope'.maxDepth - depth)) active r key value =
      takeMember scope (levelBelow scope (scope.maxDepth - depth)) active r key value := by
  have hmember : ∀ cap, .depthExceeded cap ∉
      (takeMember scope (levelBelow scope (scope.maxDepth - depth)) active r key
        value).violations := by
    intro cap hm
    apply h.not_exceeded cap
    rw [serve, apply_eq_applyOver]
    exact mem_violations_applyOver_obj.mpr ⟨r, key, value, hv, hm⟩
  exact ⟨hmember, takeMember_eq_of_depth_kept hext.definitions
    (Nat.sub_le_sub_right hext.maxDepth _) hmember⟩

theorem Kept.visits (h : Kept scope ⟨depth, active, .obj members, o⟩)
    (hext : Scope.Extends scope' scope)
    (hv : Visits (takeMember scope' (levelBelow scope' (scope'.maxDepth - depth)) active) o members
      r key value) :
    Visits (takeMember scope (levelBelow scope (scope.maxDepth - depth)) active) o members
      r key value :=
  (visits_congr fun _ _ _ hv => (h.takeMember_eq hext hv).2).mp hv

/-- A call that is kept under the smaller cap makes, under the larger one, only calls that are kept
under the smaller. -/
theorem Kept.makes (h : Kept scope c) (hext : Scope.Extends scope' scope)
    (hm : Makes scope' (levelBelow scope' (scope'.maxDepth - c.depth)) c d) : Kept scope d := by
  cases hm with
  | @nested depth active members o r key value child _ hv hc =>
    have hv := h.visits hext hv
    have hread : ∀ cap, .depthExceeded cap ∉
        (readNested scope (levelBelow scope (scope.maxDepth - depth)) active child).violations :=
      fun cap hin => (h.takeMember_eq hext hv).1 cap
        ((mem_violations_takeMember rfl).mpr (Or.inl ⟨child, hc, hin⟩))
    cases hlevel : scope.maxDepth - depth with
    | zero =>
      -- At the last level the child would have been refused.
      rw [hlevel] at hread
      exact absurd (List.mem_singleton_self _) (hread scope.maxDepth)
    | succ level =>
      rw [hlevel] at hread
      refine ⟨by simp only; omega, fun cap hin => hread cap ?_⟩
      rw [serve, show scope.maxDepth - (depth + 1) = level by omega] at hin
      exact (mem_violations_complete rfl).mpr hin
  | @followed depth active members o r key value reference name target _ hv hf =>
    have hv := h.visits hext hv
    have hf : Follows scope active r key value reference name target :=
      hf.of_definitions hext.definitions.symm
    have hread : ∀ cap, .depthExceeded cap ∉
        (takeReference scope (levelBelow scope (scope.maxDepth - depth)) active r
          reference).violations :=
      fun cap hin => (h.takeMember_eq hext hv).1 cap
        ((mem_violations_takeMember rfl).mpr (Or.inr ⟨hf.keyword, reference, hf.value_eq, hin⟩))
    cases hlevel : scope.maxDepth - depth with
    | zero =>
      rw [hlevel, levelBelow, takeReference_none hf] at hread
      exact absurd (List.mem_singleton_self _) (hread scope.maxDepth)
    | succ level =>
      rw [hlevel, levelBelow, violations_takeReference_some hf] at hread
      refine ⟨by simp only; omega, fun cap hin => hread cap ?_⟩
      rwa [serve, show scope.maxDepth - (depth + 1) = level by omega] at hin

/-- Under the larger cap, a reading that the smaller one keeps goes no deeper than the smaller. -/
theorem Kept.reached (h : Kept scope c) (hext : Scope.Extends scope' scope)
    (hr : Reached scope' c d) : Kept scope d := by
  induction hr with
  | refl => exact h
  | tail _ hm ih => exact ih.makes hext hm

/-- If the reading under the larger cap goes no deeper than the smaller, the smaller changes
nothing. -/
theorem serve_eq_of_reached_le (hext : Scope.Extends scope' scope) (hc : c.depth ≤ scope.maxDepth)
    (h : ∀ d, Reached scope' c d → d.depth ≤ scope.maxDepth) : serve scope c = serve scope' c := by
  by_cases hcap : scope'.maxDepth = scope.maxDepth
  · obtain ⟨definitions, maxDepth⟩ := scope
    obtain ⟨definitions', maxDepth'⟩ := scope'
    obtain rfl : definitions' = definitions := hext.definitions
    obtain rfl : maxDepth' = maxDepth := hcap
    rfl
  · have hmax := hext.maxDepth
    generalize hlevel : scope.maxDepth - c.depth = level
    induction level generalizing c with
    | zero =>
      -- The call is at the last level, so it makes no others.
      have hnone : ∀ d, ¬ Makes scope' (levelBelow scope' (scope'.maxDepth - c.depth)) c d := by
        intro d hm
        have := h d (.single hm)
        have := hm.depth_eq
        omega
      rw [serve, serve, apply_eq_applyOver, apply_eq_applyOver]
      apply applyOver_congr_of_makes (by omega) hext.definitions.symm
      · exact fun child hm => absurd hm (hnone _)
      · exact fun r key value reference name target _ hm => absurd hm (hnone _)
    | succ level ih =>
      obtain ⟨level', hlevel'⟩ : ∃ level', scope'.maxDepth - c.depth = level' + 1 :=
        ⟨scope'.maxDepth - c.depth - 1, by omega⟩
      rw [serve, serve, apply_eq_applyOver, apply_eq_applyOver, hlevel, hlevel', levelBelow,
        levelBelow]
      apply applyOver_some_congr (by omega) hext.definitions.symm
      intro d hm
      have hdepth := hm.depth_eq
      have hmakes : Makes scope' (levelBelow scope' (scope'.maxDepth - c.depth)) c d := by
        rwa [hlevel', levelBelow]
      have heq := ih (by omega) (fun e he => h e (.head hmakes he)) (by omega)
      rwa [serve, serve, show scope.maxDepth - d.depth = level by omega,
        show scope'.maxDepth - d.depth = level' by omega] at heq

theorem read_eq_complete_serve (scope : Scope) (descriptor : Json) :
    read scope descriptor = complete (serve scope (.root descriptor)) := rfl

/-- A descriptor that can be read in full under a cap. -/
theorem kept_root_iff : Kept scope (.root descriptor) ↔
    ∀ cap, .depthExceeded cap ∉ (read scope descriptor).violations := by
  rw [read_eq_complete_serve]
  constructor
  · exact fun h cap hin => h.not_exceeded cap ((mem_violations_complete rfl).mp hin)
  · exact fun h => ⟨Nat.zero_le _, fun cap hin => h cap ((mem_violations_complete rfl).mpr hin)⟩

theorem Kept.read_eq (h : Kept scope (.root descriptor)) (hext : Scope.Extends scope' scope) :
    read scope' descriptor = read scope descriptor := by
  rw [read_eq_complete_serve, read_eq_complete_serve, h.serve_eq hext]

theorem Kept.extend (h : Kept scope c) (hext : Scope.Extends scope' scope) : Kept scope' c :=
  ⟨Nat.le_trans h.depth_le hext.maxDepth, by
    rw [h.serve_eq hext]
    exact h.not_exceeded⟩

/-- A cap that no reached call exceeds is enough. -/
theorem Kept.of_reached_le (h : Kept scope' (.root descriptor)) (hext : Scope.Extends scope' scope)
    (hdepth : ∀ d, Reached scope' (.root descriptor) d → d.depth ≤ scope.maxDepth) :
    Kept scope (.root descriptor) :=
  ⟨Nat.zero_le _, by
    rw [serve_eq_of_reached_le hext (Nat.zero_le _) hdepth]
    exact h.not_exceeded⟩

end Descriptor
end DeviceTwin
