import DeviceTwin.Proofs.Descriptor.Circularity
import DeviceTwin.Proofs.Descriptor.Reports

/-!
Which definitions are consulted. The definitions are observed by looking up names, and a name that
is not defined is reported wherever it is looked up. A definition that is added under a name that
was not reported changes nothing.
-/
namespace DeviceTwin

/-- `scope.Adds scope' name`: the second scope has a definition of this name in addition. -/
structure Scope.Adds (scope scope' : Scope) (name : String) : Prop where
  maxDepth_eq : scope'.maxDepth = scope.maxDepth
  undefined : scope.definitions.lookup name = none
  lookup_eq : ∀ other, other ≠ name →
    scope'.definitions.lookup other = scope.definitions.lookup other

namespace Descriptor

/-- No reference to this name is reported as undefined. -/
def Unreported (name : String) (violations : List Violation) : Prop :=
  .undefinedReference ("#/definitions/" ++ name) ∉ violations

/-- Whatever is read without reporting the name is read the same. -/
def AgreesUnless (name : String) (f f' : Application) : Prop :=
  ∀ active descriptor o, Unreported name (f active descriptor o).violations →
    f' active descriptor o = f active descriptor o

variable {scope scope' : Scope} {below below' : Option Application} {active : List String}
  {o : Outline} {key name reference : String} {value descriptor : Json} {place : Pointer}

theorem Unreported.of_keeps {part whole : List Finding}
    (h : Unreported name (whole.map (·.violation))) (hkeeps : Keeps place part whole) :
    Unreported name (part.map (·.violation)) := fun hv => h (hkeeps.violation hv)

section Added

variable (hadds : scope.Adds scope' name) (hbelow : Option.Rel (AgreesUnless name) below below')

include hadds hbelow

theorem readNested_eq_of_adds
    (h : Unreported name (readNested scope below active descriptor).violations) :
    readNested scope' below' active descriptor = readNested scope below active descriptor := by
  cases hbelow with
  | none => simp only [readNested, hadds.maxDepth_eq]
  | some hagrees =>
    have heq := hagrees active descriptor {} (h.of_keeps (keeps_complete _))
    simp only [readNested, heq]

/-- The name itself is not followed, and all other names lead to the same definitions. -/
theorem takeReference_eq_of_adds
    (h : Unreported name (takeReference scope below active o reference).violations) :
    takeReference scope' below' active o reference =
      takeReference scope below active o reference := by
  unfold takeReference
  cases hn : definitionName? reference with
  | none => rfl
  | some other =>
    have hother : other ≠ name := by
      rintro rfl
      obtain rfl := eq_append_of_definitionName? hn
      exact h (by simp [takeReference, hn, hadds.undefined])
    simp only [hadds.lookup_eq other hother]
    cases hl : scope.definitions.lookup other with
    | none => rfl
    | some target =>
      by_cases hin : other ∈ active
      · simp [hin]
      · cases hkind : o.kind with
        | some existing => rfl
        | none =>
          cases hbelow with
          | none => simp only [hadds.maxDepth_eq]
          | some hagrees =>
            have hf : Follows scope active o "$ref" (.str reference) reference other target :=
              ⟨rfl, rfl, hn, hl, hin, hkind⟩
            rw [violations_takeReference_some hf] at h
            have heq := hagrees (other :: active) target (o.noteReference reference) h
            simp only [heq]

theorem takeMember_eq_of_adds
    (h : Unreported name (takeMember scope below active o key value).violations) :
    takeMember scope' below' active o key value = takeMember scope below active o key value := by
  apply takeMember_congr
  · intro child hchild
    obtain ⟨place, hinside⟩ := exists_inside_of_mem_inner hchild
    apply readNested_eq_of_adds hadds hbelow
    exact fun hv => h (List.mem_append_left _ (hinside.keeps.violation hv))
  · rintro hk reference rfl
    obtain rfl := Keyword.ofName?_eq_some_iff.mp hk
    exact takeReference_eq_of_adds hadds hbelow h

theorem applyOver_eq_of_adds
    (h : Unreported name (applyOver scope below active descriptor o).violations) :
    applyOver scope' below' active descriptor o = applyOver scope below active descriptor o := by
  cases descriptor with
  | obj members =>
    apply readMembers_congr
    intro r key value hvisit
    apply takeMember_eq_of_adds hadds hbelow
    exact fun hv => h (mem_violations_applyOver_obj.mpr ⟨r, key, value, hvisit, hv⟩)
  | _ => rfl

end Added

/-- At every level, what does not report the name is read the same. -/
theorem levelBelow_agrees (hadds : scope.Adds scope' name) (level : Nat) :
    Option.Rel (AgreesUnless name) (levelBelow scope level) (levelBelow scope' level) := by
  induction level with
  | zero => exact .none
  | succ level ih =>
    refine .some fun active descriptor o h => ?_
    rw [apply_eq_applyOver] at h
    rw [apply_eq_applyOver, apply_eq_applyOver, applyOver_eq_of_adds hadds ih h]

theorem read_eq_of_adds (hadds : scope.Adds scope' name)
    (h : Unreported name (read scope descriptor).violations) :
    read scope' descriptor = read scope descriptor := by
  have happly : Unreported name (apply scope scope.maxDepth [] descriptor {}).violations :=
    h.of_keeps (keeps_complete _)
  rw [apply_eq_applyOver] at happly
  have heq := applyOver_eq_of_adds hadds (levelBelow_agrees hadds scope.maxDepth) happly
  rw [read, read, hadds.maxDepth_eq, apply_eq_applyOver, apply_eq_applyOver, heq]

end Descriptor
end DeviceTwin
