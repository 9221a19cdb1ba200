import DeviceTwin.Proofs.Descriptor.DepthCap
import DeviceTwin.Proofs.Descriptor.Parts

/-!
The nodes of a shape. Each of them is the shape of a descriptor that is read on the way, or empty
where there is none or the levels end.
-/
namespace DeviceTwin.Descriptor

/-- The node is empty, or what is read of a descriptor that the call leads to. -/
def IsServed (scope : Scope) (root : Call) (node : Shape) : Prop :=
  node = {} ∨ ∃ c, Reached scope root c ∧ c.outline = {} ∧
    node = (complete (serve scope c)).value

variable {scope : Scope} {root c d : Call}

theorem allNodes_empty : Shape.AllNodes (IsServed scope root) {} :=
  Shape.allNodes_iff.mpr ⟨Or.inl rfl, nofun⟩

theorem allNodes_complete (hreached : Reached scope root c) (hempty : c.outline = {})
    (hparts : (serve scope c).value.AllParts (Shape.AllNodes (IsServed scope root))) :
    Shape.AllNodes (IsServed scope root) (complete (serve scope c)).value := by
  refine Shape.allNodes_iff.mpr ⟨Or.inr ⟨c, hreached, hempty, rfl⟩, fun part hpart => ?_⟩
  exact hparts part (Outline.mem_parts_of_mem_finalKind hpart)

/-- The parts that a call collects are served by the calls that it makes. -/
theorem serve_allParts (hreached : Reached scope root c)
    (hparts : c.outline.AllParts (Shape.AllNodes (IsServed scope root))) :
    (serve scope c).value.AllParts (Shape.AllNodes (IsServed scope root)) := by
  generalize hlevel : scope.maxDepth - c.depth = level
  induction level generalizing c with
  | zero =>
    obtain ⟨depth, active, descriptor, o⟩ := c
    rw [serve, hlevel, apply_eq_applyOver]
    cases descriptor with
    | obj members =>
      apply applyOver_allParts (p := Shape.AllNodes (IsServed scope root)) allNodes_empty _ _ hparts
      · intro r key value child _ _
        exact allNodes_empty
      · rintro r key value reference name target _ _ _ ⟨⟩
    | _ => exact hparts
  | succ level ih =>
    obtain ⟨depth, active, descriptor, o⟩ := c
    have hdepth : depth < scope.maxDepth := by simp only at hlevel; omega
    have hbelow : scope.maxDepth - (depth + 1) = level := by simp only at hlevel; omega
    have hmakes : ∀ d, Makes scope (levelBelow scope (level + 1)) ⟨depth, active, descriptor, o⟩ d →
        Reached scope root d := by
      intro d hd
      rw [← hlevel] at hd
      exact hreached.tail hd
    rw [serve, hlevel, apply_eq_applyOver]
    cases descriptor with
    | obj members =>
      apply applyOver_allParts (p := Shape.AllNodes (IsServed scope root)) allNodes_empty _ _ hparts
      · intro r key value child hv hchild
        have hd := hmakes _ (.nested (Nat.le_of_lt hdepth) hv hchild)
        have hserve : apply scope level active child {} =
            serve scope ⟨depth + 1, active, child, {}⟩ := by rw [serve, hbelow]
        have hchild := ih hd Outline.allParts_empty hbelow
        have hnodes := allNodes_complete hd rfl hchild
        rwa [← hserve] at hnodes
      · rintro r key value reference name target _ hv hf ⟨⟩ hr
        have hd := hmakes _ (.followed hdepth hv hf)
        have hserve : apply scope level (name :: active) target (r.noteReference reference) =
            serve scope ⟨depth + 1, name :: active, target, r.noteReference reference⟩ := by
          rw [serve, hbelow]
        rw [hserve]
        exact ih hd hr hbelow
    | _ => exact hparts

/-- Every node of the shape of a descriptor is empty, or is read of a descriptor that reading the
first one leads to. -/
theorem allNodes_read (scope : Scope) (descriptor : Json) :
    Shape.AllNodes (IsServed scope (.root descriptor)) (read scope descriptor).value :=
  allNodes_complete .refl rfl (serve_allParts .refl Outline.allParts_empty)

end DeviceTwin.Descriptor
