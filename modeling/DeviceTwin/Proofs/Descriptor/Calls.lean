import Mathlib.Logic.Relation
import DeviceTwin.Proofs.Descriptor.Levels

/-!
The calls of a reader. Applying a descriptor calls for the descriptors inside of it and for the
definitions that it refers to, each one level down; what a call gives depends on these calls alone.
-/
namespace DeviceTwin.Descriptor

/-- A descriptor to be applied to an outline, with its depth and the names in use. -/
structure Call where
  depth : Nat
  active : List String
  descriptor : Json
  outline : Outline

/-- The call that reads a descriptor on its own. -/
def Call.root (descriptor : Json) : Call := ⟨0, [], descriptor, {}⟩

/-- What a call gives, with the levels that there are below its depth. -/
def serve (scope : Scope) (c : Call) : Noted Outline :=
  apply scope (scope.maxDepth - c.depth) c.active c.descriptor c.outline

/-- `Makes scope below c d`: served on top of `below`, the call `c` calls for `d`. A descriptor
inside of another is called for even where there is no level left, and refused there. -/
inductive Makes (scope : Scope) (below : Option Application) : Call → Call → Prop
  | nested {depth active members o r key value child} (hd : depth ≤ scope.maxDepth)
      (hv : Visits (takeMember scope below active) o members r key value)
      (hc : child ∈ inner r key value) :
      Makes scope below ⟨depth, active, .obj members, o⟩ ⟨depth + 1, active, child, {}⟩
  | followed {depth active members o r key value reference name target}
      (hd : depth < scope.maxDepth)
      (hv : Visits (takeMember scope below active) o members r key value)
      (hf : Follows scope active r key value reference name target) :
      Makes scope below ⟨depth, active, .obj members, o⟩
        ⟨depth + 1, name :: active, target, r.noteReference reference⟩

/-- The calls made on the way of serving `c`, directly or by other calls. -/
def Reached (scope : Scope) : Call → Call → Prop :=
  Relation.ReflTransGen fun c d => Makes scope (levelBelow scope (scope.maxDepth - c.depth)) c d

/-- `Serves scope c n`: serving the call `c` ends, with `n`. A derivation serves every call that is
made on the way once, and counts no levels. -/
inductive Serves (scope : Scope) : Call → Noted Outline → Prop
  | last {c : Call} (hd : c.depth = scope.maxDepth) :
      Serves scope c (applyOver scope none c.active c.descriptor c.outline)
  | inside {c : Call} {f : Application} (hd : c.depth < scope.maxDepth)
      (hs : ∀ d, Makes scope (some f) c d → Serves scope d (f d.active d.descriptor d.outline)) :
      Serves scope c (applyOver scope (some f) c.active c.descriptor c.outline)

variable {scope scope' : Scope} {below below' : Option Application} {c d : Call}
  {n : Noted Outline}

theorem Makes.depth_eq (h : Makes scope below c d) : d.depth = c.depth + 1 := by
  cases h <;> rfl

theorem Makes.depth_le (h : Makes scope below c d) : c.depth ≤ scope.maxDepth := by
  cases h with
  | nested hd => exact hd
  | followed hd => exact Nat.le_of_lt hd

/-- A descriptor below the last level is cut off: it has no shape, and the cap is reported. -/
theorem Makes.readNested_cut
    (h : Makes scope (levelBelow scope (scope.maxDepth - c.depth)) c d)
    (hd : scope.maxDepth < d.depth) (descriptor : Json) :
    readNested scope (levelBelow scope (scope.maxDepth - c.depth)) d.active descriptor =
      .refused {} (.depthExceeded scope.maxDepth) := by
  have hle := h.depth_le
  have hdepth := h.depth_eq
  have hlast : scope.maxDepth - c.depth = 0 := by omega
  rw [hlast]
  rfl

/-- A call depends on nothing but the calls that it makes. -/
theorem applyOver_congr_of_makes (hd : c.depth < scope.maxDepth)
    (hdefs : scope'.definitions = scope.definitions)
    (hn : ∀ child, Makes scope below c ⟨c.depth + 1, c.active, child, {}⟩ →
      readNested scope' below' c.active child = readNested scope below c.active child)
    (hr : ∀ r key value reference name target,
      Follows scope c.active r key value reference name target →
      Makes scope below c ⟨c.depth + 1, name :: c.active, target, r.noteReference reference⟩ →
      takeReference scope' below' c.active r reference =
        takeReference scope below c.active r reference) :
    applyOver scope' below' c.active c.descriptor c.outline =
      applyOver scope below c.active c.descriptor c.outline := by
  obtain ⟨depth, active, descriptor, o⟩ := c
  cases descriptor with
  | obj members =>
    apply applyOver_congr
    · intro r key value child hv hc
      exact hn child (.nested (Nat.le_of_lt hd) hv hc)
    · rintro r key value reference hv hk rfl
      by_cases hf : ∃ name target, Follows scope active r key (.str reference) reference name target
      · obtain ⟨name, target, hf⟩ := hf
        exact hr r key _ reference name target hf (.followed hd hv hf)
      · exact takeReference_of_not_follows hdefs hk (fun _ _ _ _ => Iff.rfl)
          fun name target h => hf ⟨name, target, h⟩
  | _ => rfl

theorem Follows.of_definitions {active : List String} {o : Outline} {key reference name : String}
    {value target : Json} (hdefs : scope'.definitions = scope.definitions)
    (h : Follows scope active o key value reference name target) :
    Follows scope' active o key value reference name target :=
  { h with defined := by rw [hdefs, h.defined] }

theorem applyOver_some_congr {f g : Application} (hd : c.depth < scope.maxDepth)
    (hdefs : scope'.definitions = scope.definitions)
    (h : ∀ d, Makes scope (some f) c d →
      g d.active d.descriptor d.outline = f d.active d.descriptor d.outline) :
    applyOver scope' (some g) c.active c.descriptor c.outline =
      applyOver scope (some f) c.active c.descriptor c.outline := by
  apply applyOver_congr_of_makes hd hdefs
  · intro child hm
    have := h _ hm
    simp_all [readNested]
  · intro r key value reference name target hf hm
    rw [takeReference_some hf, takeReference_some (hf.of_definitions hdefs)]
    have := h _ hm
    simp_all

theorem serves_serve (h : c.depth ≤ scope.maxDepth) : Serves scope c (serve scope c) := by
  unfold serve
  generalize hlevel : scope.maxDepth - c.depth = level
  induction level generalizing c with
  | zero => exact .last (by omega)
  | succ level ih =>
    refine .inside (f := apply scope level) (by omega) fun d hm => ?_
    have hdepth := hm.depth_eq
    exact ih (by omega) (by omega)

/-- Every call ends, and with what the levels give. -/
theorem serves_iff (h : c.depth ≤ scope.maxDepth) :
    Serves scope c n ↔ n = serve scope c := by
  constructor
  · intro hs
    induction hs with
    | last hd => rw [serve, hd, Nat.sub_self, apply_eq_applyOver, levelBelow]
    | @inside c f hd hs ih =>
      obtain ⟨level, hlevel⟩ : ∃ level, scope.maxDepth - c.depth = level + 1 :=
        ⟨scope.maxDepth - c.depth - 1, by omega⟩
      rw [serve, hlevel, apply_eq_applyOver, levelBelow]
      refine (applyOver_some_congr hd rfl fun d hm => ?_).symm
      have hdepth := hm.depth_eq
      have heq := ih d hm (by omega)
      rw [heq, serve, show scope.maxDepth - d.depth = level by omega]
  · rintro rfl
    exact serves_serve h

end DeviceTwin.Descriptor
