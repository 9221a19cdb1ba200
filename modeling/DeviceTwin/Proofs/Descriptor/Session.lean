import DeviceTwin.Descriptor.Reading
import DeviceTwin.Proofs.Order

/-!
Reading in sessions. In a session one reader takes any number of descriptors in turn: it keeps the
stack of the definitions that are being taken, and records diagnostics with the text of their paths.
Whatever has been read before, a descriptor reads as it does on its own, and the stack is left as it
was.
-/
namespace DeviceTwin.Descriptor

/-- What a reader keeps. -/
structure Session where
  /-- The names of the definitions that are being taken, the innermost first. -/
  active : List String := []
  diagnostics : List Diagnostic := []

namespace Session

abbrev Run := StateM Session

def report (path : String) (violation : Violation) : Run Unit :=
  modify fun s => { s with diagnostics := s.diagnostics ++ [⟨path, violation⟩] }

def enter (name : String) : Run Unit := modify fun s => { s with active := name :: s.active }

def leave : Run Unit := modify fun s => { s with active := s.active.tail }

section Reader

variable {α ρ : Type}

/-- A record behind a member, and why the member was refused, if it was. -/
abbrev Outcome (ρ : Type) := ρ × Option Violation

def outcome (record : ρ) : Except Violation ρ → Outcome ρ
  | .ok changed => (changed, none)
  | .error violation => (record, some violation)

/-- Reads a value; storing it may still be refused. -/
def store (record : ρ) (read : Run α) (put : α → Except Violation ρ) : Run (Outcome ρ) := do
  return outcome record (put (← read))

/-- Takes members in order, and reports those that are refused. -/
def takeMembers (take : ρ → String → Json → String → Run (Outcome ρ)) (path : String)
    (record : ρ) : List (String × Json) → Run ρ
  | [] => return record
  | (key, value) :: rest => do
    let (changed, refusal) ← take record key value (Pointer.join path key)
    refusal.forM (report (Pointer.join path key))
    takeMembers take path changed rest

/-- Reads an array from an index on. -/
def takeItems (read : Json → String → Run (Option α)) (path : String) (index : Nat) :
    List Json → Run (List α)
  | [] => return []
  | item :: rest => do
    let first ← read item (Pointer.join path (toString index))
    let later ← takeItems read path (index + 1) rest
    return first.toList ++ later

def takeRecord (take : ρ → String → Json → String → Run (Outcome ρ)) (initial : ρ) (value : Json)
    (path : String) : Run (Option ρ) :=
  match value.expectObject with
  | .ok members => do return some (← takeMembers take path initial members)
  | .error violation => do
    report path violation
    return none

/-- Applies a descriptor that is found at a path. -/
abbrev Application := Json → Outline → String → Run Outline

/-- The complete shape; collections that it leaves out are reported. -/
def finish (o : Outline) (path : String) : Run Shape := do
  o.complete.2.forM (report path)
  return o.complete.1

def takeEntry (entry : StateEntry) (key : String) (value : Json) (_path : String) :
    Run (Outcome StateEntry) :=
  let taken := Descriptor.takeEntry entry key value
  return (taken.record, taken.refusal)

variable (scope : Scope) (below : Option Application)

def takeNested (descriptor : Json) (path : String) : Run Shape :=
  match below with
  | none => do
    report path (.depthExceeded scope.maxDepth)
    return {}
  | some apply => do finish (← apply descriptor {} path) path

def takePart (member : Member Shape) (key : String) (value : Json) (path : String) :
    Run (Outcome (Member Shape)) :=
  match key with
  | "name" =>
    return outcome member (value.expectString.map fun name => { member with name := some name })
  | "element" =>
    store member (takeNested scope below value path) fun shape => .ok { member with shape }
  | key => return (member, some (.unknownMember key))

def takeField (field : BitField Shape) (key : String) (value : Json) (path : String) :
    Run (Outcome (BitField Shape)) :=
  match key with
  | "name" =>
    return outcome field (value.expectString.map fun name => { field with name := some name })
  | "descriptions" =>
    return outcome field ((Labels.read value).map fun description => { field with description })
  | "position" =>
    return outcome field
      ((BitPosition.read value).map fun ⟨index, mask⟩ => { field with index, mask })
  | "value" => store field (takeNested scope below value path) fun value => .ok { field with value }
  | key => return (field, some (.unknownMember key))

/-- A definition is on the stack while its members are taken. -/
def takeReference (o : Outline) (reference : String) (path : String) : Run (Outcome Outline) :=
  match definitionName? reference with
  | none => return (o, some (.malformedReference reference))
  | some name =>
    match scope.definitions.lookup name with
    | none => return (o, some (.undefinedReference reference))
    | some target => do
      if (← get).active.contains name then
        return (o, some (.circularReference reference))
      else
        match o.kind, below with
        | some existing, _ => return (o, some (.kindAlreadySet existing.name))
        | none, none => return (o, some (.depthExceeded scope.maxDepth))
        | none, some apply => do
          enter name
          let inlined ← apply target (o.noteReference reference) path
          leave
          return (inlined, none)

/-- Takes an array; reading its items leads to a value to be stored. -/
def takeArray (o : Outline) (value : Json) (read : List Json → Run α)
    (put : α → Except Violation Outline) : Run (Outcome Outline) :=
  match value.expectArray with
  | .error violation => return (o, some violation)
  | .ok items => store o (read items) put

def takeValues (o : Outline) (value : Json) (path : String) : Run (Outcome Outline) :=
  match value.expectArray with
  | .error violation => return (o, some violation)
  | .ok items =>
    match o.kind with
    | some .state | some .numericValue =>
      store o (takeItems (takeRecord takeEntry {}) path 0 items) o.addStates
    | some .number =>
      match o.format with
      | none => return (o, some .missingNumberFormat)
      | some format => return outcome o ((NumberWords.read format items).bind o.addNumbers)
    | other => return (o, some (.enumNotSupported (Tag.nameOf other)))

def takeAlternatives (o : Outline) (value : Json) (path : String) : Run (Outcome Outline) :=
  match o.kind with
  | some existing => return (o, some (.kindAlreadySet existing.name))
  | none =>
    match value.expectArray with
    | .error violation => return (o, some violation)
    | .ok items =>
      let o := { o with kind := some .oneOf }
      let read (item : Json) (path : String) : Run (Option (Member Shape)) := do
        return some { shape := ← takeNested scope below item path }
      store o (takeItems read path 0 items) (o.addChildren "oneOf")

def takeElement (o : Outline) (value : Json) (path : String) : Run (Outcome Outline) :=
  match value.expectObject with
  | .error violation => return (o, some violation)
  | .ok _ =>
    store o (takeNested scope below value path) fun shape => o.addChildren "items" [{ shape }]

/-- Takes one member of a descriptor. -/
def takeKeyword (o : Outline) (keyword : Keyword) (value : Json) (path : String) :
    Run (Outcome Outline) :=
  match keyword with
  | .values => takeValues o value path
  | .properties =>
    takeArray o value (takeItems (takeRecord (takePart scope below) { shape := {} }) path 0)
      (o.addChildren "properties")
  | .items => takeElement scope below o value path
  | .bitmaps =>
    takeArray o value (takeItems (takeRecord (takeField scope below) { value := {} }) path 0)
      o.addBitFields
  | .oneOf => takeAlternatives scope below o value path
  | .reference =>
    match value.expectString with
    | .error violation => return (o, some violation)
    | .ok reference => takeReference scope below o reference path
  | keyword =>
    -- Any other member is settled by its value alone.
    let taken := Descriptor.takeKeyword scope none [] o keyword value
    return (taken.record, taken.refusal)

def takeMember (o : Outline) (key : String) (value : Json) (path : String) :
    Run (Outcome Outline) :=
  match Keyword.ofName? key with
  | none => return (o, some (.unknownMember key))
  | some keyword => takeKeyword scope below o keyword value path

def applyOver (descriptor : Json) (o : Outline) (path : String) : Run Outline :=
  match descriptor.expectObject with
  | .error violation => do
    report path violation
    return o
  | .ok members => takeMembers (takeMember scope below) path o members

def apply (scope : Scope) : Nat → Application
  | 0, descriptor, o, path => applyOver scope none descriptor o path
  | level + 1, descriptor, o, path => applyOver scope (some (apply scope level)) descriptor o path

/-- Reads the descriptor that is found at a path. -/
def read (scope : Scope) (descriptor : Json) (path : String) : Run Shape := do
  finish (← apply scope scope.maxDepth descriptor {} path) path

/-- Reads descriptors in turn. -/
def readAll (scope : Scope) : List (Json × String) → Run (List Shape)
  | [] => return []
  | (descriptor, path) :: rest => do
    let shape ← read scope descriptor path
    return shape :: (← readAll scope rest)

end Reader

/-- The session with findings from a value that stands at a path. -/
def note (s : Session) (path : String) (findings : List Finding) : Session :=
  { s with diagnostics := s.diagnostics ++ findings.map (·.diagnostic path) }

/-- `Realizes active path run reading`: in any session with this stack, the run gives the value of
the reading and notes its findings, where `path` is the path of what is read. The stack is the same
afterwards. -/
def Realizes {α : Type} (active : List String) (path : String) (run : Run α) (reading : Noted α) :
    Prop :=
  ∀ s : Session, s.active = active → run.run s = (reading.value, s.note path reading.findings)

section Realizes

variable {α β ρ : Type} {active : List String} {path segment : String} {run : Run α}
  {reading reading' : Noted α} {s : Session}

@[simp] theorem note_nil : s.note path [] = s := by
  simp [note]

@[simp] theorem note_note (a b : List Finding) :
    (s.note path a).note path b = s.note path (a ++ b) := by
  simp [note]

@[simp] theorem active_note (a : List Finding) : (s.note path a).active = s.active := rfl

theorem note_join (a : List Finding) :
    s.note (Pointer.join path segment) a = s.note path (a.map (·.within segment)) := by
  simp [note, Finding.diagnostic, Finding.within, Pointer.renderFrom]

theorem realizes_pure (a : α) : Realizes active path (pure a) ⟨a, []⟩ := by
  intro s _
  rw [note_nil]
  rfl

theorem realizes_report (v : Violation) :
    Realizes active path (report path v) ⟨(), [⟨[], v⟩]⟩ := fun _ _ => rfl

theorem Realizes.bind {f : α → Run β} {later : Noted β} (h : Realizes active path run reading)
    (hlater : Realizes active path (f reading.value) later) :
    Realizes active path (run >>= f) ⟨later.value, reading.findings ++ later.findings⟩ := by
  intro s hs
  have hrun : (run >>= f).run s = (f (run.run s).1).run (run.run s).2 := rfl
  rw [hrun, h s hs, hlater (s.note path reading.findings) hs, note_note]

theorem Realizes.map (h : Realizes active path run reading) (f : α → β) :
    Realizes active path (run >>= fun a => pure (f a)) (reading.map f) := by
  intro s hs
  have hrun : (run >>= fun a => pure (f a)).run s = (f (run.run s).1, (run.run s).2) := rfl
  rw [hrun, h s hs]
  rfl

theorem Realizes.within (h : Realizes active (Pointer.join path segment) run reading) :
    Realizes active path run (reading.within segment) := by
  intro s hs
  rw [h s hs, note_join]
  rfl

theorem Realizes.congr (h : Realizes active path run reading) (heq : reading' = reading) :
    Realizes active path run reading' := heq ▸ h

/-- What became of a member, as a reading. -/
def noted (taken : Taken ρ) : Noted (Outcome ρ) := ⟨(taken.record, taken.refusal), taken.findings⟩

theorem realizes_outcome (record : ρ) (x : Except Violation ρ) :
    Realizes active path (pure (outcome record x)) (noted (.ofExcept record x)) :=
  (realizes_pure _).congr (by cases x <;> rfl)

/-- A member that nothing is found in. -/
theorem realizes_settled {taken : Taken ρ} (h : taken.findings = []) :
    Realizes active path (pure (taken.record, taken.refusal)) (noted taken) :=
  (realizes_pure _).congr (by rw [noted, h])

theorem realizes_refused (record : ρ) (v : Violation) :
    Realizes active path (pure (record, some v)) (noted (.refused record v)) := realizes_pure _

theorem realizes_store {record : ρ} {put : α → Except Violation ρ}
    (h : Realizes active path run reading) :
    Realizes active path (store record run put) (noted (.store record reading put)) :=
  (h.map fun a => outcome record (put a)).congr <| by
    cases hput : put reading.value <;>
      simp [noted, Noted.map, Taken.store, Taken.ofExcept, outcome, hput]

theorem realizes_reports (violations : List Violation) :
    Realizes active path (violations.forM (report path))
      ⟨(), violations.map (Finding.mk [])⟩ := by
  induction violations with
  | nil => exact realizes_pure ()
  | cons v rest ih => exact (realizes_report v).bind (f := fun _ => rest.forM (report path)) ih

theorem realizes_refusal (refusal : Option Violation) :
    Realizes active path (refusal.forM (report path))
      ⟨(), refusal.toList.map (Finding.mk [])⟩ := by
  cases refusal with
  | none => exact realizes_pure ()
  | some v => exact realizes_report v

/-- A member is taken, its refusal is reported, and the members behind it go on from there. -/
theorem realizes_member {key : String} {taking : Run (Outcome ρ)} {taken : Taken ρ}
    {f : ρ → Run β} {later : Noted β}
    (h : Realizes active (Pointer.join path key) taking (noted taken))
    (hlater : Realizes active path (f taken.record) later) :
    Realizes active path
      (do
        let (changed, refusal) ← taking
        refusal.forM (report (Pointer.join path key))
        f changed)
      ⟨later.value, taken.findingsUnder key ++ later.findings⟩ := by
  have hbehind : Realizes active path
      (taken.refusal.forM (report (Pointer.join path key)) >>= fun _ => f taken.record)
      ⟨later.value, (taken.refusal.toList.map (Finding.mk [])).map (·.within key) ++
        later.findings⟩ :=
    (realizes_refusal taken.refusal).within.bind hlater
  refine (h.within.bind hbehind).congr ?_
  simp [noted, Noted.within, Taken.findingsUnder]

theorem realizes_takeMembers {take : ρ → String → Json → String → Run (Outcome ρ)}
    {taken : ρ → String → Json → Taken ρ}
    (h : ∀ record key value path,
      Realizes active path (take record key value path) (noted (taken record key value)))
    (record : ρ) (members : List (String × Json)) :
    Realizes active path (takeMembers take path record members)
      (readMembers taken record members) := by
  induction members generalizing record with
  | nil => exact realizes_pure record
  | cons member rest ih =>
    obtain ⟨key, value⟩ := member
    exact realizes_member (f := fun changed => takeMembers take path changed rest)
      (h record key value _) (ih _)

theorem realizes_takeItems {read : Json → String → Run (Option α)}
    {reading : Json → Noted (Option α)}
    (h : ∀ item path, Realizes active path (read item path) (reading item))
    (index : Nat) (items : List Json) :
    Realizes active path (takeItems read path index items) (readItems reading index items) := by
  induction items generalizing index with
  | nil => exact realizes_pure []
  | cons item rest ih =>
    have hitem := (h item (Pointer.join path (toString index))).within
    exact hitem.bind (f := fun first => takeItems read path (index + 1) rest >>= fun later =>
      pure (first.toList ++ later)) ((ih (index + 1)).map _)

theorem realizes_takeRecord {take : ρ → String → Json → String → Run (Outcome ρ)}
    {taken : ρ → String → Json → Taken ρ}
    (h : ∀ record key value path,
      Realizes active path (take record key value path) (noted (taken record key value)))
    (initial : ρ) (value : Json) (path : String) :
    Realizes active path (takeRecord take initial value path) (readRecord taken initial value) := by
  unfold takeRecord readRecord
  cases value.expectObject with
  | error v => exact (realizes_report v).map fun _ => none
  | ok members => exact (realizes_takeMembers h initial members).map some

theorem realizes_finish {o : Outline} :
    Realizes active path (finish o path) ⟨o.complete.1, o.complete.2.map (Finding.mk [])⟩ :=
  (realizes_reports o.complete.2).map fun _ => o.complete.1

end Realizes

/-- Applying a descriptor in a session, and applying it on its own. -/
def Alike (apply : Application) (applyAlone : Descriptor.Application) : Prop :=
  ∀ active descriptor o path,
    Realizes active path (apply descriptor o path) (applyAlone active descriptor o)

section Members

variable {scope : Scope} {below : Option Application} {belowAlone : Option Descriptor.Application}
  {active : List String} {path : String} {o : Outline} {value : Json}

theorem realizes_complete {run : Run Outline} {reading : Noted Outline}
    (h : Realizes active path run reading) :
    Realizes active path (run >>= fun o => finish o path) (complete reading) :=
  h.bind (f := fun o => finish o path) realizes_finish

variable (h : Option.Rel Alike below belowAlone)

include h

theorem realizes_takeNested (descriptor : Json) (path : String) :
    Realizes active path (takeNested scope below descriptor path)
      (readNested scope belowAlone active descriptor) := by
  cases h with
  | none => exact (realizes_report _).map fun _ => ({} : Shape)
  | some hbelow => exact realizes_complete (hbelow active descriptor {} path)

theorem realizes_takePart (member : Member Shape) (key : String) (value : Json) (path : String) :
    Realizes active path (takePart scope below member key value path)
      (noted (Descriptor.takePart scope belowAlone active member key value)) := by
  by_cases hname : key = "name"
  · subst hname
    exact realizes_outcome member _
  by_cases helement : key = "element"
  · subst helement
    exact realizes_store (realizes_takeNested h value path)
  · simp only [takePart, Descriptor.takePart]
    exact realizes_refused member _

theorem realizes_takeField (field : BitField Shape) (key : String) (value : Json) (path : String) :
    Realizes active path (takeField scope below field key value path)
      (noted (Descriptor.takeField scope belowAlone active field key value)) := by
  by_cases hname : key = "name"
  · subst hname
    exact realizes_outcome field _
  by_cases hdescriptions : key = "descriptions"
  · subst hdescriptions
    exact realizes_outcome field _
  by_cases hposition : key = "position"
  · subst hposition
    exact realizes_outcome field _
  by_cases hvalue : key = "value"
  · subst hvalue
    exact realizes_store (realizes_takeNested h value path)
  · simp only [takeField, Descriptor.takeField]
    exact realizes_refused field _

/-- The name that is pushed for a definition is off the stack when its members have been taken. -/
theorem realizes_takeReference (o : Outline) (reference path : String) :
    Realizes active path (takeReference scope below o reference path)
      (noted (Descriptor.takeReference scope belowAlone active o reference)) := by
  unfold takeReference Descriptor.takeReference
  cases definitionName? reference with
  | none => exact realizes_refused o _
  | some name =>
    dsimp only
    cases scope.definitions.lookup name with
    | none => exact realizes_refused o _
    | some target =>
      rintro s rfl
      -- The stack is looked at before anything is pushed.
      change (if s.active.contains name = true then _ else _ : Run (Outcome Outline)).run s = _
      by_cases hactive : s.active.contains name = true
      · simp only [hactive, if_true]
        exact realizes_refused o _ s rfl
      · simp only [hactive]
        cases o.kind with
        | some existing => exact realizes_refused o _ s rfl
        | none =>
          cases h with
          | none => exact realizes_refused o _ s rfl
          | @some apply _ hbelow =>
            have hinlined := hbelow (name :: s.active) target (o.noteReference reference) path
              { s with active := name :: s.active } rfl
            let pop (inlined : Outline × Session) : Outcome Outline × Session :=
              ((inlined.1, none), { inlined.2 with active := inlined.2.active.tail })
            change pop ((apply target (o.noteReference reference) path).run
              { s with active := name :: s.active }) = _
            rw [hinlined]
            rfl

theorem realizes_takeAlternatives :
    Realizes active path (takeAlternatives scope below o value path)
      (noted (Descriptor.takeAlternatives scope belowAlone active o value)) := by
  unfold takeAlternatives Descriptor.takeAlternatives
  cases o.kind with
  | some existing => exact realizes_refused o _
  | none =>
    cases value.expectArray with
    | error v => exact realizes_refused o _
    | ok items =>
      refine realizes_store (realizes_takeItems (fun item path => ?_) 0 items)
      exact (realizes_takeNested h item path).map _

theorem realizes_takeElement :
    Realizes active path (takeElement scope below o value path)
      (noted (Descriptor.takeElement scope belowAlone active o value)) := by
  unfold takeElement Descriptor.takeElement
  cases value.expectObject with
  | error v => exact realizes_refused o _
  | ok fields => exact realizes_store (realizes_takeNested h value path)

omit h in
theorem realizes_takeArray {α : Type} {read : List Json → Run α}
    {reading : List Json → Noted α} {put : α → Except Violation Outline}
    (hread : ∀ items, Realizes active path (read items) (reading items)) :
    Realizes active path (takeArray o value read put)
      (noted (Descriptor.takeArray o value reading put)) := by
  unfold takeArray Descriptor.takeArray
  cases value.expectArray with
  | error v => exact realizes_refused o _
  | ok items => exact realizes_store (hread items)

omit h in
theorem realizes_takeValues :
    Realizes active path (takeValues o value path) (noted (Descriptor.takeValues o value)) := by
  have hentry (entry : StateEntry) (key : String) (value : Json) (path : String) :
      Realizes active path (takeEntry entry key value path)
        (noted (Descriptor.takeEntry entry key value)) :=
    realizes_settled (Taken.findings_ofExcept _)
  have hstates (items : List Json) :
      Realizes active path (store o (takeItems (takeRecord takeEntry {}) path 0 items) o.addStates)
        (noted (.store o (readEntries items) o.addStates)) :=
    realizes_store (realizes_takeItems (realizes_takeRecord hentry {}) 0 items)
  unfold takeValues Descriptor.takeValues
  cases value.expectArray with
  | error v => exact realizes_refused o _
  | ok items =>
    cases o.kind with
    | none => exact realizes_refused o _
    | some kind =>
      cases kind with
      | state | numericValue => exact hstates items
      | number =>
        cases o.format with
        | none => exact realizes_refused o _
        | some format => exact realizes_outcome o _
      | _ => exact realizes_refused o _

theorem realizes_takeKeyword (o : Outline) (keyword : Keyword) (value : Json) (path : String) :
    Realizes active path (takeKeyword scope below o keyword value path)
      (noted (Descriptor.takeKeyword scope belowAlone active o keyword value)) := by
  cases keyword with
  | values => exact realizes_takeValues
  | properties =>
    exact realizes_takeArray fun items =>
      realizes_takeItems (realizes_takeRecord (realizes_takePart h) { shape := {} }) 0 items
  | items => exact realizes_takeElement h
  | bitmaps =>
    exact realizes_takeArray fun items =>
      realizes_takeItems (realizes_takeRecord (realizes_takeField h) { value := {} }) 0 items
  | oneOf => exact realizes_takeAlternatives h
  | reference =>
    unfold takeKeyword Descriptor.takeKeyword
    cases value.expectString with
    | error v => exact realizes_refused o _
    | ok reference => exact realizes_takeReference h o reference path
  | _ => exact realizes_settled (Taken.findings_ofExcept _)

theorem realizes_applyOver (descriptor : Json) (o : Outline) (path : String) :
    Realizes active path (applyOver scope below descriptor o path)
      (Descriptor.applyOver scope belowAlone active descriptor o) := by
  have hmember (o : Outline) (key : String) (value : Json) (path : String) :
      Realizes active path (takeMember scope below o key value path)
        (noted (Descriptor.takeMember scope belowAlone active o key value)) := by
    unfold takeMember Descriptor.takeMember
    cases Keyword.ofName? key with
    | none => exact realizes_refused o _
    | some keyword => exact realizes_takeKeyword h o keyword value path
  unfold applyOver Descriptor.applyOver
  cases descriptor.expectObject with
  | error v => exact (realizes_report v).map fun _ => o
  | ok members => exact realizes_takeMembers hmember o members

end Members

theorem alike_apply (scope : Scope) (level : Nat) :
    Alike (apply scope level) (Descriptor.apply scope level) := by
  induction level with
  | zero => exact fun _ => realizes_applyOver .none
  | succ level ih => exact fun _ => realizes_applyOver (.some ih)

/-- In any session a descriptor is read as on its own, and the stack is the same afterwards. -/
theorem realizes_apply (scope : Scope) (active : List String) (descriptor : Json) (path : String) :
    Realizes active path (read scope descriptor path)
      (complete (Descriptor.apply scope scope.maxDepth active descriptor {})) :=
  realizes_complete (alike_apply scope scope.maxDepth active descriptor {} path)

/-- Between descriptors the stack is empty. -/
theorem realizes_read (scope : Scope) (descriptor : Json) (path : String) :
    Realizes [] path (read scope descriptor path) (Descriptor.read scope descriptor) :=
  realizes_apply scope [] descriptor path

/-- A descriptor read in a session of its own. -/
def alone (scope : Scope) (input : Json × String) : Shape × Session :=
  (read scope input.1 input.2).run {}

theorem alone_eq (scope : Scope) (descriptor : Json) (path : String) :
    alone scope (descriptor, path) =
      ((Descriptor.read scope descriptor).value,
        ⟨[], (Descriptor.read scope descriptor).findings.map (·.diagnostic path)⟩) :=
  realizes_read scope descriptor path {} rfl

variable {scope : Scope} {inputs : List (Json × String)} {s : Session}

/-- Descriptors that are read in turn are read as they are alone, one after the other. -/
theorem run_readAll (h : s.active = []) : (readAll scope inputs).run s =
    (inputs.map fun input => (alone scope input).1,
      ⟨[], s.diagnostics ++ inputs.flatMap fun input => (alone scope input).2.diagnostics⟩) := by
  induction inputs generalizing s with
  | nil =>
    obtain ⟨active, diagnostics⟩ := s
    cases h
    rw [List.flatMap_nil, List.append_nil]
    rfl
  | cons input rest ih =>
    obtain ⟨descriptor, path⟩ := input
    let cons (later : List Shape × Session) (shape : Shape) : List Shape × Session :=
      (shape :: later.1, later.2)
    have hfirst := realizes_read scope descriptor path s h
    change cons ((readAll scope rest).run ((read scope descriptor path).run s).2)
      ((read scope descriptor path).run s).1 = _
    rw [hfirst, ih (by rw [active_note, h]), List.map_cons, List.flatMap_cons, alone_eq]
    simp only [cons, note, List.append_assoc]

/-- A reader can be used again: its stack is empty after every descriptor, each shape is the one
that a reader of its own gives, and all that is recorded is what these readers record. -/
theorem readAll_eq_alone (scope : Scope) (inputs : List (Json × String)) :
    (readAll scope inputs).run {} = (inputs.map fun input => (alone scope input).1,
        { active := [], diagnostics :=
            inputs.flatMap fun input => (alone scope input).2.diagnostics }) ∧
      (∀ k, ((readAll scope (inputs.take k)).run {}).2.active = []) ∧
      ∀ descriptor path, alone scope (descriptor, path) =
        ((Descriptor.read scope descriptor).value,
          { active := [], diagnostics :=
              (Descriptor.read scope descriptor).findings.map (·.diagnostic path) }) := by
  refine ⟨run_readAll rfl, fun k => ?_, alone_eq scope⟩
  rw [run_readAll rfl]

/-- A definition that refers to itself is circular each time that it is read. -/
example :
    let scope : Scope :=
      { definitions := [("loop", .obj [("$ref", .str "#/definitions/loop")])], maxDepth := 2 }
    let descriptor : Json := .obj [("$ref", .str "#/definitions/loop")]
    ((readAll scope [(descriptor, "/a"), (descriptor, "/b")]).run {}).2.diagnostics =
      [⟨"/a/$ref/$ref", .circularReference "#/definitions/loop"⟩,
        ⟨"/b/$ref/$ref", .circularReference "#/definitions/loop"⟩] := by decide

end Session
end DeviceTwin.Descriptor
