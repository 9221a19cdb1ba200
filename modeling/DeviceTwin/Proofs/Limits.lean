import DeviceTwin.Labels
import DeviceTwin.Proofs.Record

/-!
The limits on nesting and on circular references, and the computations that never report them.
-/
namespace DeviceTwin

/-- Violations of the limits within which definitions and nested descriptors are followed. -/
def Violation.isLimit : Violation → Bool
  | .circularReference _ | .depthExceeded _ => true
  | _ => false

/-- A computation that fails for no limit. -/
def Plain {α : Type} (x : Except Violation α) : Prop := ∀ v, x = .error v → v.isLimit = false

section Plain

variable {α β : Type} {x : Except Violation α} {f : α → Except Violation β} {value : Json}

theorem plain_ok (a : α) : Plain (.ok a : Except Violation α) := nofun

theorem plain_error {v : Violation} (h : v.isLimit = false) :
    Plain (.error v : Except Violation α) := by
  rintro _ ⟨⟩
  exact h

theorem Plain.bind (hx : Plain x) (hf : ∀ a, Plain (f a)) : Plain (x.bind f) := by
  cases x with
  | error v => exact plain_error (hx v rfl)
  | ok a => exact hf a

theorem Plain.map {g : α → β} (hx : Plain x) : Plain (x.map g) := by
  cases x with
  | error v => exact plain_error (hx v rfl)
  | ok a => exact plain_ok _

theorem Plain.mapM {γ : Type} {g : γ → Except Violation α} (hg : ∀ c, Plain (g c))
    (items : List γ) : Plain (items.mapM g) := by
  induction items with
  | nil => exact plain_ok _
  | cons c rest ih =>
    rw [List.mapM_cons]
    exact (hg c).bind fun a => ih.bind fun as => plain_ok _

theorem plain_expectObject : Plain value.expectObject := by
  cases value <;> first | exact plain_ok _ | exact plain_error rfl

theorem plain_expectArray : Plain value.expectArray := by
  cases value <;> first | exact plain_ok _ | exact plain_error rfl

theorem plain_expectString : Plain value.expectString := by
  cases value <;> first | exact plain_ok _ | exact plain_error rfl

theorem plain_expectBool : Plain value.expectBool := by
  cases value <;> first | exact plain_ok _ | exact plain_error rfl

theorem plain_expectBinary64 : Plain value.expectBinary64 := by
  cases value <;> first | exact plain_ok _ | exact plain_error rfl

theorem plain_optionalString (members : List (String × Json)) (key : String) :
    Plain (Json.optionalString members key) := by
  unfold Json.optionalString
  split
  · exact plain_ok _
  · exact plain_expectString.map

theorem Labels.plain_read : Plain (Labels.read value) :=
  plain_expectObject.bind fun members =>
    (plain_optionalString members "ja").bind fun _ =>
      (plain_optionalString members "en").bind fun _ => plain_ok _

end Plain

section Taken

variable {ρ α : Type} {r : ρ} {v : Violation}

theorem not_mem_violations_ofExcept {x : Except Violation ρ} (hv : v.isLimit = true)
    (hx : Plain x) : v ∉ (Taken.ofExcept r x).violations := by
  intro h
  have := hx v (Taken.mem_violations_ofExcept.mp h)
  simp_all

theorem not_mem_violations_refused {w : Violation} (hv : v.isLimit = true)
    (hw : w.isLimit = false) : v ∉ (Taken.refused r w).violations := by
  rw [Taken.violations_refused, List.mem_singleton]
  rintro rfl
  simp_all

/-- A value that is read and then stored reports a limit only from the reading. -/
theorem mem_violations_store_plain {n : Noted α} {put : α → Except Violation ρ}
    (hv : v.isLimit = true) (hput : ∀ x, Plain (put x)) :
    v ∈ (Taken.store r n put).violations ↔ v ∈ n.violations := by
  rw [Taken.mem_violations_store, or_iff_left]
  intro h
  have := hput n.value v h
  simp_all

end Taken

end DeviceTwin
