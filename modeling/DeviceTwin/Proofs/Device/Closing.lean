import DeviceTwin.Proofs.Device.Traversal

/-!
Who takes the contents. A trace falls into closings: contents, and the end that takes them. Every
closing of a class with an English name is one interface, and no other contents are written.
-/
namespace DeviceTwin.Device

/-- The contents produced since the end before, and the class that ends. -/
structure Closing where
  produced : List (List Content)
  className : Labels

namespace Closing

/-- The part of a trace that a closing is. -/
def events (closing : Closing) : List Event :=
  closing.produced.map .produced ++ [.ended closing.className]

/-- The interface of a class with an English name, with all contents since the end before. -/
def interface? (options : Options) (closing : Closing) : Option Interface :=
  closing.className.en.map fun en =>
    .make options closing.className.ja en closing.produced.flatten

end Closing

/-- The contents that an event produces. -/
def Event.contents : Event → List Content
  | .produced contents => contents
  | .ended _ => []

variable {scope : Scope} {options : Options} {pending : List Content} {trace : List Event}
  {closing : Closing} {closings closings' : List Closing}

theorem assembleFrom_produced (produced : List (List Content)) :
    assembleFrom options pending (produced.map .produced ++ trace) =
      assembleFrom options (pending ++ produced.flatten) trace := by
  induction produced generalizing pending with
  | nil => simp
  | cons contents rest ih =>
    rw [List.map_cons, List.cons_append, assembleFrom, ih, List.flatten_cons, List.append_assoc]

/-- Contents after the last end are in no interface. -/
theorem assemble_produced (produced : List (List Content)) :
    assemble options (produced.map .produced) = [] := by
  rw [assemble, ← List.append_nil (produced.map _), assembleFrom_produced]
  rfl

theorem assemble_events_append : assemble options (closing.events ++ trace) =
    (closing.interface? options).toList ++ assemble options trace := by
  obtain ⟨produced, ja, _ | en⟩ := closing
  all_goals
    rw [assemble, Closing.events, List.append_assoc, assembleFrom_produced, List.nil_append]
    rfl

theorem assemble_flatMap_events_append (closings : List Closing) :
    assemble options (closings.flatMap Closing.events ++ trace) =
      closings.filterMap (Closing.interface? options) ++ assemble options trace := by
  induction closings with
  | nil => rfl
  | cons closing rest ih =>
    rw [List.flatMap_cons, List.append_assoc, assemble_events_append, ih, List.filterMap_cons]
    cases closing.interface? options <;> rfl

/-- Every closing with an English name gives one interface, in order. -/
theorem assemble_flatMap_events (closings : List Closing) :
    assemble options (closings.flatMap Closing.events) =
      closings.filterMap (Closing.interface? options) := by
  have h := @assemble_flatMap_events_append options [] closings
  rwa [List.append_nil, show assemble options [] = [] from rfl, List.append_nil] at h

theorem Closing.events_append_inj {a b : Closing} {rest rest' : List Event}
    (h : a.events ++ rest = b.events ++ rest') : a = b ∧ rest = rest' := by
  obtain ⟨produced, className⟩ := a
  obtain ⟨produced', className'⟩ := b
  induction produced generalizing produced' with
  | nil =>
    cases produced' with
    | nil =>
      simp only [events, List.map_nil, List.nil_append, List.cons_append, List.cons.injEq,
        Event.ended.injEq] at h
      exact ⟨by rw [h.1], h.2⟩
    | cons contents' produced' => simp [events] at h
  | cons contents produced ih =>
    cases produced' with
    | nil => simp [events] at h
    | cons contents' produced' =>
      simp only [events, List.map_cons, List.cons_append, List.cons.injEq,
        Event.produced.injEq] at h
      obtain ⟨heq, hrest⟩ := ih produced' h.2
      cases heq
      exact ⟨by rw [h.1], hrest⟩

theorem events_ne_nil (closing : Closing) : closing.events ≠ [] := by
  simp [Closing.events]

/-- A trace falls into closings in one way at most. -/
theorem flatMap_events_inj
    (h : closings.flatMap Closing.events = closings'.flatMap Closing.events) :
    closings = closings' := by
  induction closings generalizing closings' with
  | nil =>
    cases closings' with
    | nil => rfl
    | cons closing rest =>
      exact absurd (List.append_eq_nil_iff.mp h.symm).1 (events_ne_nil closing)
  | cons closing rest ih =>
    cases closings' with
    | nil => exact absurd (List.append_eq_nil_iff.mp h).1 (events_ne_nil closing)
    | cons closing' rest' =>
      obtain ⟨rfl, hrest⟩ := Closing.events_append_inj h
      rw [ih hrest]

/-- A trace falls into closings and the contents after the last end. -/
theorem exists_closings (trace : List Event) :
    ∃ (closings : List Closing) (pending : List (List Content)),
      trace = closings.flatMap Closing.events ++ pending.map .produced := by
  induction trace with
  | nil => exact ⟨[], [], rfl⟩
  | cons event rest ih =>
    obtain ⟨closings, pending, rfl⟩ := ih
    cases event with
    | ended className => exact ⟨⟨[], className⟩ :: closings, pending, rfl⟩
    | produced contents =>
      cases closings with
      | nil => exact ⟨[], contents :: pending, rfl⟩
      | cons closing closings =>
        exact ⟨{ closing with produced := contents :: closing.produced } :: closings, pending, rfl⟩

/-- After the end of a device no contents are left. -/
theorem exists_closings_traversal (scope : Scope) (options : Options) (device : Json) :
    ∃ closings : List Closing,
      traversal scope options device = closings.flatMap Closing.events := by
  cases device with
  | obj members =>
    obtain ⟨closings, pending, h⟩ := exists_closings (traversalOfMembers scope options members)
    refine ⟨closings ++ [⟨pending, classNameOf members⟩], ?_⟩
    rw [traversal, h, List.flatMap_append, List.append_assoc, List.flatMap_singleton]
    rfl
  | _ => exact ⟨[], by simp [traversal]⟩

/-- `SameBut old new a b`: the same interfaces, but for the contents of one of them, which hold
`old` and `new` at the same place. -/
inductive SameBut (old new : List Content) : List Interface → List Interface → Prop
  | same (interfaces : List Interface) : SameBut old new interfaces interfaces
  | contents (before after : List Interface) (interface : Interface) (pre post : List Content) :
    SameBut old new (before ++ { interface with contents := pre ++ old ++ post } :: after)
      (before ++ { interface with contents := pre ++ new ++ post } :: after)

theorem SameBut.between {old new : List Content} {a b : List Interface} (h : SameBut old new a b)
    (before after : List Interface) :
    SameBut old new (before ++ a ++ after) (before ++ b ++ after) := by
  cases h with
  | same interfaces => exact .same _
  | contents before' after' interface pre post =>
    have h := @SameBut.contents old new (before ++ before') (after' ++ after)
      interface pre post
    simpa only [List.append_assoc, List.cons_append] using h

theorem sameBut_interface? (before after : List (List Content)) (className : Labels)
    (old new : List Content) :
    SameBut old new (Closing.interface? options ⟨before ++ old :: after, className⟩).toList
      (Closing.interface? options ⟨before ++ new :: after, className⟩).toList := by
  obtain ⟨ja, _ | en⟩ := className
  · exact .same []
  · have h := @SameBut.contents old new [] [] (.make options ja en [])
      before.flatten after.flatten
    simpa [Closing.interface?, Interface.make] using h

/-- Only the first end after contents takes them. -/
theorem sameBut_assemble (options : Options) (before after : List Event) (old new : List Content) :
    SameBut old new (assemble options (before ++ [.produced old] ++ after))
      (assemble options (before ++ [.produced new] ++ after)) := by
  -- The contents belong to the first closing that ends behind them, if there is one.
  obtain ⟨closings, pending, rfl⟩ := exists_closings before
  obtain ⟨closings', pending', rfl⟩ := exists_closings after
  simp only [List.append_assoc, assemble_flatMap_events_append]
  cases closings' with
  | nil =>
    have hnone : ∀ contents : List Content,
        assemble options (pending.map .produced ++ ([.produced contents] ++
          ([].flatMap Closing.events ++ pending'.map .produced))) = [] := by
      intro contents
      have h := @assemble_produced options (pending ++ contents :: pending')
      simpa using h
    rw [hnone, hnone]
    exact .same _
  | cons closing rest =>
    have hclosing : ∀ contents : List Content,
        assemble options (pending.map .produced ++ ([.produced contents] ++
          ((closing :: rest).flatMap Closing.events ++ pending'.map .produced))) =
        (Closing.interface? options
          ⟨pending ++ contents :: closing.produced, closing.className⟩).toList ++
            assemble options (rest.flatMap Closing.events ++ pending'.map .produced) := by
      intro contents
      rw [← assemble_events_append]
      simp [Closing.events]
    rw [hclosing, hclosing, ← List.append_assoc, ← List.append_assoc]
    exact (sameBut_interface? pending closing.produced closing.className old new).between _ _

theorem ended_mem_flatMap_events (h : closing ∈ closings) :
    .ended closing.className ∈ closings.flatMap Closing.events :=
  List.mem_flatMap.mpr ⟨closing, h, List.mem_append_right _ (List.mem_singleton_self _)⟩

theorem contents_events (closing : Closing) :
    closing.events.flatMap Event.contents = closing.produced.flatten := by
  simp [Closing.events, List.flatMap_map, Event.contents, List.flatMap_id']

/-- If every class has an English name, no contents are lost. -/
theorem contents_filterMap_interface? (h : ∀ closing ∈ closings, closing.className.en.isSome) :
    (closings.filterMap (Closing.interface? options)).flatMap (·.contents) =
      (closings.flatMap Closing.events).flatMap Event.contents := by
  induction closings with
  | nil => rfl
  | cons closing rest ih =>
    obtain ⟨en, hen⟩ := Option.isSome_iff_exists.mp (h closing List.mem_cons_self)
    have hinterface : closing.interface? options =
        some (.make options closing.className.ja en closing.produced.flatten) := by
      rw [Closing.interface?, hen, Option.map_some]
    rw [List.filterMap_cons_some hinterface, List.flatMap_cons, List.flatMap_cons,
      List.flatMap_append, contents_events, ih fun c hc => h c (List.mem_cons_of_mem _ hc)]
    rfl

/-- `Emits scope options device interfaces`: these are the interfaces of the closings of the
device. -/
structure Emits (scope : Scope) (options : Options) (device : Json) (interfaces : List Interface) :
    Prop where
  /-- The traversal falls into closings in exactly one way, and the interfaces are those of the
  closings that have an English name. -/
  of_closings : ∃ closings : List Closing,
    (∀ other : List Closing,
      other.flatMap Closing.events = traversal scope options device ↔ other = closings) ∧
      interfaces = closings.filterMap (Closing.interface? options)
  /-- If every class has an English name, the interfaces hold all contents in order. -/
  conserved :
    (∀ className, .ended className ∈ traversal scope options device → className.en.isSome) →
      interfaces.flatMap (·.contents) =
        (traversal scope options device).flatMap Event.contents

/-- What is assembled from the trace of a device. -/
theorem emits_assemble (scope : Scope) (options : Options) (device : Json) :
    Emits scope options device (assemble options (read scope options device).value) := by
  obtain ⟨closings, h⟩ := exists_closings_traversal scope options device
  have hassemble : assemble options (read scope options device).value =
      closings.filterMap (Closing.interface? options) := by
    rw [value_read, h, assemble_flatMap_events]
  refine ⟨⟨closings, fun other => ⟨fun hother => ?_, fun heq => ?_⟩, hassemble⟩, fun hnamed => ?_⟩
  · exact flatMap_events_inj (hother.trans h)
  · rw [heq, h]
  · rw [hassemble, h]
    apply contents_filterMap_interface?
    intro closing hc
    exact hnamed closing.className (by rw [h]; exact ended_mem_flatMap_events hc)

end DeviceTwin.Device
