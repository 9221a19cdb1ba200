import DeviceTwin.Proofs.Shape.Adding

/-!
The collections of a shape. An outline takes each of them at most once and holds it to the end. Then
the shape has the whole of it, or it is reported, or it is lost without a trace: an enumeration on a
kind that has none, and all items of an array but the first.
-/
namespace DeviceTwin

/-- A kind that nothing was given for. -/
def Kind.IsBare : Kind Shape → Prop
  | .state entries | .numericValue entries => entries = []
  | .object members => members = []
  | .array element => element = none
  | .bitmap fields => fields = []
  | .number _ words => words = none
  | .oneOf alternatives => alternatives = []
  | .unset | .dateTime | .time | .raw | .level => True

namespace Collection

/-- The collection, with all of its elements, is what belongs to the kind. Only the parts of objects
keep their names. -/
def PayloadOf (kind : Kind Shape) : Collection → Prop
  | states entries => kind = .state entries ∨ kind = .numericValue entries
  | numbers words => ∃ format, kind = .number format (some words)
  | children source members =>
    (source = "properties" ∧ kind = .object members) ∨
      (source = "items" ∧ ∃ element : Option Shape,
        kind = .array element ∧ element.toList = members.map (·.shape)) ∨
      (source = "oneOf" ∧ kind = .oneOf (members.map (·.shape)))
  | bitFields fields => kind = .bitmap fields
  | coefficients _ => False

/-- All of the collection is in the shape. -/
def KeptIn (shape : Shape) (c : Collection) : Prop :=
  c.PayloadOf shape.kind ∨ c = .coefficients shape.coefficients

def ReportedIn (violations : List Violation) (c : Collection) : Prop :=
  ∃ kind, .misplacedCollection c.source kind ∈ violations

/-- Nothing tells of an enumeration on another kind, unless parts are reported under its name, nor
of the items of an array behind the first. -/
def LostIn (o : Outline) : Collection → Prop
  | states _ => o.kind ≠ some .state ∧ o.kind ≠ some .numericValue ∧
      ∀ members, o.children ≠ some ("enum", members)
  | numbers _ => o.kind ≠ some .number ∧ ∀ members, o.children ≠ some ("enum", members)
  | children source members => o.kind = some .array ∧ source = "items" ∧ 2 ≤ members.length
  | bitFields _ | coefficients _ => False

end Collection

namespace Outline

variable {o r : Outline} {c d : Collection}

section Complete

/-! What becomes of the collections that a complete outline holds. -/

variable {source : String} {members : List (Member Shape)}

theorem mem_misplaced_iff : source ∈ o.misplaced ↔
    (∃ members, o.children = some (source, members) ∧ o.kind.bind childSource? ≠ some source) ∨
      source = "bitmaps" ∧ o.bitFields ≠ none ∧ o.kind ≠ some .bitmap := by
  rw [misplaced, List.mem_append]
  refine or_congr ?_ ?_
  · cases o.children with
    | none => simp
    | some children =>
      obtain ⟨source', members'⟩ := children
      by_cases hown : o.kind.bind childSource? = some source'
      · simp only [hown, if_true, List.not_mem_nil, false_iff]
        rintro ⟨_, hchildren, hne⟩
        cases hchildren
        exact hne rfl
      · simp only [hown, if_false, List.mem_singleton, Option.some.injEq, Prod.mk.injEq]
        constructor
        · rintro rfl
          exact ⟨members', ⟨rfl, rfl⟩, hown⟩
        · rintro ⟨_, ⟨rfl, -⟩, -⟩
          rfl
  · cases o.bitFields <;> simp [and_comm]

/-- A collection is reported with the kind that it does not belong to. -/
theorem mem_complete_iff {collection kind : String} :
    .misplacedCollection collection kind ∈ o.complete.2 ↔
      collection ∈ o.misplaced ∧ kind = Tag.nameOf o.kind := by
  simp only [complete, List.mem_map, Violation.misplacedCollection.injEq]
  constructor
  · rintro ⟨_, hm, rfl, rfl⟩
    exact ⟨hm, rfl⟩
  · rintro ⟨hm, rfl⟩
    exact ⟨collection, hm, rfl, rfl⟩

theorem reportedIn_complete_iff : c.ReportedIn o.complete.2 ↔ c.source ∈ o.misplaced := by
  simp [Collection.ReportedIn, mem_complete_iff]

theorem ownChildren_eq (h : o.children = some (source, members)) :
    o.ownChildren = if o.kind.bind childSource? = some source then members else [] := by
  rw [ownChildren, h]

/-- No kind takes its parts from an enumeration or from bit fields. -/
theorem childSource?_ne (h : source = "enum" ∨ source = "bitmaps") :
    o.kind.bind childSource? ≠ some source := by
  cases o.kind with
  | none => nofun
  | some tag => rcases h with rfl | rfl <;> cases tag <;> simp [childSource?]

theorem enum_mem_misplaced_iff :
    "enum" ∈ o.misplaced ↔ ∃ members, o.children = some ("enum", members) := by
  simp [mem_misplaced_iff, childSource?_ne (.inl rfl)]

theorem states_payload_iff {entries : List StateEntry} (h : o.states = some entries) :
    (Collection.states entries).PayloadOf o.finalKind ↔
      o.kind = some .state ∨ o.kind = some .numericValue := by
  rw [Collection.PayloadOf, finalKind]
  cases o.kind with
  | none => simp
  | some tag => cases tag <;> simp [h]

theorem numbers_payload_iff {words : NumberWords} (h : o.numbers = some words) :
    (Collection.numbers words).PayloadOf o.finalKind ↔ o.kind = some .number := by
  rw [Collection.PayloadOf, finalKind]
  cases o.kind with
  | none => simp
  | some tag => cases tag <;> simp [h]

/-- An array takes one item. -/
theorem head?_toList_eq_map_iff :
    (members.head?.map (·.shape)).toList = members.map (·.shape) ↔ members.length < 2 := by
  match members with
  | [] => simp
  | [member] => simp
  | member :: next :: rest => simp

/-- Parts that belong to the kind are there, all but the items of an array behind the first. -/
theorem children_payload_iff (h : o.children = some (source, members))
    (hown : o.kind.bind childSource? = some source) :
    (Collection.children source members).PayloadOf o.finalKind ↔
      ¬ (o.kind = some .array ∧ source = "items" ∧ 2 ≤ members.length) := by
  have hmembers : o.ownChildren = members := by rw [ownChildren_eq h, if_pos hown]
  obtain ⟨tag, hkind, hsource⟩ := Option.bind_eq_some_iff.mp hown
  rw [Collection.PayloadOf, finalKind, hkind]
  cases tag with
  | object => cases hsource; simp [hmembers]
  | array =>
    cases hsource
    simp only [hmembers, reduceCtorEq, and_false, String.reduceEq, or_false, false_or,
      true_and, Kind.array.injEq, exists_eq_left', head?_toList_eq_map_iff, Nat.not_le]
  | oneOf => cases hsource; simp [hmembers]
  | _ => cases hsource

theorem misplaced_of_children (h : o.children = some (source, members)) :
    source ∈ o.misplaced ↔ o.kind.bind childSource? ≠ some source ∨
      source = "bitmaps" ∧ o.bitFields ≠ none ∧ o.kind ≠ some .bitmap := by
  simp [mem_misplaced_iff, h]

theorem bitFields_payload_iff {fields : List (BitField Shape)} (h : o.bitFields = some fields) :
    (Collection.bitFields fields).PayloadOf o.finalKind ↔ o.kind = some .bitmap := by
  rw [Collection.PayloadOf, finalKind]
  cases o.kind with
  | none => simp
  | some tag => cases tag <;> simp [h]

/-- A complete outline has or reports each collection that it holds, but for those that are lost. -/
theorem kept_or_reported_iff (h : c.HeldBy o) :
    (c.KeptIn o.complete.1 ∨ c.ReportedIn o.complete.2) ↔ ¬ c.LostIn o := by
  rw [reportedIn_complete_iff, Collection.KeptIn, show o.complete.1.kind = o.finalKind from rfl]
  cases c with
  | states entries =>
    simp only [states_payload_iff h, Collection.source, enum_mem_misplaced_iff, reduceCtorEq,
      or_false, Collection.LostIn]
    grind
  | numbers words =>
    simp only [numbers_payload_iff h, Collection.source, enum_mem_misplaced_iff, reduceCtorEq,
      or_false, Collection.LostIn]
    grind
  | children source members =>
    have hmisplaced := misplaced_of_children h
    simp only [reduceCtorEq, or_false, Collection.source, Collection.LostIn]
    by_cases hown : o.kind.bind childSource? = some source
    · have hnot : source ∉ o.misplaced := by
        rw [hmisplaced]
        rintro (hne | ⟨rfl, -⟩)
        · exact hne hown
        · exact childSource?_ne (.inr rfl) hown
      simp only [children_payload_iff h hown, hnot, or_false]
    · refine iff_of_true (.inr (hmisplaced.mpr (.inl hown))) ?_
      rintro ⟨hkind, rfl, -⟩
      simp [hkind, childSource?] at hown
  | bitFields fields =>
    refine iff_of_true ?_ False.elim
    by_cases hkind : o.kind = some .bitmap
    · exact .inl (.inl ((bitFields_payload_iff h).mpr hkind))
    · have hsome : o.bitFields ≠ none := by simp [show o.bitFields = some fields from h]
      exact .inr (mem_misplaced_iff.mpr (.inr ⟨rfl, hsome, hkind⟩))
  | coefficients codes =>
    refine iff_of_true (.inl (.inr ?_)) False.elim
    simp [complete, show o.coefficients = some codes from h]

theorem ownChildren_eq_nil_or (o : Outline) : o.ownChildren = [] ∨
    ∃ c : Collection, c.HeldBy o ∧ (c.LostIn o ∨ c.PayloadOf o.finalKind) := by
  cases hchildren : o.children with
  | none => exact .inl (by rw [ownChildren, hchildren])
  | some children =>
    obtain ⟨source, members⟩ := children
    by_cases hown : o.kind.bind childSource? = some source
    · refine .inr ⟨.children source members, hchildren, ?_⟩
      rw [children_payload_iff hchildren hown]
      exact Classical.em _
    · exact .inl (by rw [ownChildren_eq hchildren, if_neg hown])

/-- What belongs to a kind comes from a collection that is held. -/
theorem isBare_or_exists_heldBy (o : Outline) :
    o.finalKind.IsBare ∨ ∃ c : Collection, c.HeldBy o ∧ (c.LostIn o ∨ c.PayloadOf o.finalKind) := by
  have hstates (hkind : o.kind = some .state ∨ o.kind = some .numericValue) : o.states = none ∨
      ∃ c : Collection, c.HeldBy o ∧ (c.LostIn o ∨ c.PayloadOf o.finalKind) := by
    cases h : o.states with
    | none => exact .inl rfl
    | some entries => exact .inr ⟨.states entries, h, .inr ((states_payload_iff h).mpr hkind)⟩
  cases hkind : o.kind with
  | none => exact .inl (by simp [finalKind, hkind, Kind.IsBare])
  | some tag =>
    cases tag with
    | state =>
      exact (hstates (.inl hkind)).imp_left fun h => by simp [finalKind, hkind, h, Kind.IsBare]
    | numericValue =>
      exact (hstates (.inr hkind)).imp_left fun h => by simp [finalKind, hkind, h, Kind.IsBare]
    | object | array | oneOf =>
      exact (ownChildren_eq_nil_or o).imp_left fun h => by simp [finalKind, hkind, h, Kind.IsBare]
    | bitmap =>
      cases h : o.bitFields with
      | none => exact .inl (by simp [finalKind, hkind, h, Kind.IsBare])
      | some fields => exact .inr ⟨.bitFields fields, h, .inr ((bitFields_payload_iff h).mpr hkind)⟩
    | number =>
      cases h : o.numbers with
      | none => exact .inl (by simp [finalKind, hkind, h, Kind.IsBare])
      | some words => exact .inr ⟨.numbers words, h, .inr ((numbers_payload_iff h).mpr hkind)⟩
    | _ => exact .inl (by simp [finalKind, hkind, Kind.IsBare])

end Complete

section Calls

/-- A call that gives something for a shape. -/
inductive Call where
  | kind (tag : Tag)
  | format (f : NumberFormat)
  | attributes (a : Attributes)
  | reference (text : String)
  | collection (c : Collection)

def Call.run (o : Outline) : Call → Except Violation Outline
  | .kind tag => o.fixKind tag
  | .format f => .ok (o.useFormat f)
  | .attributes a => .ok { o with attributes := a }
  | .reference text => .ok (o.noteReference text)
  | .collection c => c.addTo o

/-- The outline behind a call; a refused call leaves it as it was. -/
def call (o : Outline) (call : Call) : Outline :=
  match call.run o with
  | .ok changed => changed
  | .error _ => o

/-- The outline behind a sequence of calls. -/
def ofCalls (calls : List Call) : Outline := calls.foldl call {}

variable {step : Call} {calls : List Call}

/-- A call leaves the collections that are held, and adds the one that it gives. -/
theorem heldBy_of_run (h : step.run o = .ok r) :
    d.HeldBy r ↔ step = .collection d ∨ d.HeldBy o := by
  cases step with
  | kind tag =>
    rw [Call.run, fixKind] at h
    split at h
    · cases h
      cases d <;> simp [Collection.HeldBy]
    · cases h
  | collection c =>
    have hadd : d.HeldBy r ↔ d = c ∨ d.HeldBy o := heldBy_iff_of_addTo h
    simpa [eq_comm] using hadd
  | _ =>
    cases h
    cases d <;> simp [Collection.HeldBy, useFormat, noteReference]

theorem heldBy_call (h : c.HeldBy o) : c.HeldBy (o.call step) := by
  unfold call
  split
  · next hrun => exact (heldBy_of_run hrun).mpr (.inr h)
  · exact h

/-- What is held remains, whatever calls follow. -/
theorem heldBy_foldl_call (h : c.HeldBy o) : c.HeldBy (calls.foldl call o) := by
  induction calls generalizing o with
  | nil => exact h
  | cons step rest ih => exact ih (heldBy_call h)

/-- In any sequence of calls, each collection that is accepted ends up in the complete shape or in
the report, but for those that are lost. -/
theorem accepted_kept_or_reported_iff {before after : List Call}
    (h : c.addTo (ofCalls before) = .ok r) :
    (c.KeptIn (ofCalls (before ++ .collection c :: after)).complete.1 ∨
      c.ReportedIn (ofCalls (before ++ .collection c :: after)).complete.2) ↔
      ¬ c.LostIn (ofCalls (before ++ .collection c :: after)) := by
  have hrun : (Call.collection c).run (ofCalls before) = .ok r := h
  have haccepted : c.HeldBy ((ofCalls before).call (.collection c)) := by
    rw [call, hrun]
    exact (heldBy_iff_of_addTo h).mpr (.inl rfl)
  refine kept_or_reported_iff ?_
  rw [ofCalls, List.foldl_append, List.foldl_cons]
  exact heldBy_foldl_call haccepted

/-- Bit fields that are given before the kind of a number. -/
theorem accepted_kept_or_reported_misplaced :
    let fields : List (BitField Shape) :=
      [{ name := some "door", mask := some "0x01", value := {} }, { value := {} }]
    (Collection.bitFields fields).addTo (ofCalls [.format .int8]) =
        .ok { format := some .int8, bitFields := some fields } ∧
      ((Collection.bitFields fields).KeptIn
          (ofCalls [.format .int8, .collection (.bitFields fields), .kind .number]).complete.1 ∨
        (Collection.bitFields fields).ReportedIn
          (ofCalls [.format .int8, .collection (.bitFields fields), .kind .number]).complete.2) := by
  intro fields
  have hadd : (Collection.bitFields fields).addTo (ofCalls [.format .int8]) =
      .ok { format := some .int8, bitFields := some fields } := rfl
  exact ⟨hadd, (accepted_kept_or_reported_iff hadd).mpr nofun⟩

/-- States that are given for a level are accepted, and then neither there nor reported. -/
theorem accepted_states_lost :
    ¬ ∀ (before after : List Call) (c : Collection) (r : Outline),
      c.addTo (ofCalls before) = .ok r →
        c.KeptIn (ofCalls (before ++ .collection c :: after)).complete.1 ∨
          c.ReportedIn (ofCalls (before ++ .collection c :: after)).complete.2 := by
  intro hall
  rcases hall [.kind .level] [] (.states [{ code := 48 }]) _ rfl with
    (hkind | hcodes) | ⟨kind, hreport⟩
  · exact hkind.elim nofun nofun
  · cases hcodes
  · cases hreport

end Calls

end Outline

end DeviceTwin
