import DeviceTwin.Proofs.Device.Traversal
import DeviceTwin.Proofs.Property.Session

/-!
Devices in a session. The devices and variants of an entry share one slot of contents: properties
append to it, and every end takes it. What is assembled in this way is what the trace of the device
assembles.
-/
namespace DeviceTwin.Device

/-- What has been assembled of an entry. -/
structure Assembly where
  /-- The contents for the next end. There are none before the first property. -/
  contents : Option (List Content) := none
  interfaces : List Interface := []

namespace Assembly

/-- A device or variant ends. It takes the contents, with or without an English name. -/
def close (options : Options) (className : Labels) (a : Assembly) : Assembly where
  contents := none
  interfaces :=
    match className with
    | ⟨ja, some en⟩ => a.interfaces ++ [.make options ja en (a.contents.getD [])]
    | ⟨_, none⟩ => a.interfaces

def step (options : Options) (a : Assembly) : Event → Assembly
  | .produced contents => { a with contents := some (a.contents.getD [] ++ contents) }
  | .ended className => a.close options className

/-- The assembly after the events of a trace. -/
def replay (options : Options) (a : Assembly) (trace : List Event) : Assembly :=
  trace.foldl (step options) a

variable {options : Options} {a : Assembly} {trace later : List Event}

theorem replay_append :
    a.replay options (trace ++ later) = (a.replay options trace).replay options later :=
  List.foldl_append

/-- The slot holds what is pending, and every interface is there once it has ended. -/
theorem interfaces_replay : (a.replay options trace).interfaces =
    a.interfaces ++ assembleFrom options (a.contents.getD []) trace := by
  induction trace generalizing a with
  | nil => exact (List.append_nil _).symm
  | cons event rest ih =>
    rw [replay, List.foldl_cons, ← replay, ih]
    cases event with
    | produced contents => rfl
    | ended className =>
      obtain ⟨ja, _ | en⟩ := className
      · rfl
      · exact List.append_assoc ..

end Assembly

theorem readDraft_cons_of_ne {scope : Scope} {options : Options} {draft : Draft} {key : String}
    {value : Json} {rest : List (String × Json)} (h : key ≠ "oneOf") :
    readDraft scope options draft ((key, value) :: rest) =
      ⟨(readDraft scope options (draft.takeMember scope options key value).record rest).value,
        (draft.takeMember scope options key value).findingsUnder key ++
          (readDraft scope options (draft.takeMember scope options key value).record
            rest).findings⟩ := by
  cases value <;> simp only [readDraft, if_neg h]

namespace Session

open Descriptor.Session

/-- A device that is being read, with what has been assembled so far. -/
structure Draft where
  className : Labels := {}
  assembly : Assembly

variable (scope : Scope) (options : Options)

/-- Reads properties, each of which appends to the slot. -/
def readProperties (path : String) (a : Assembly) : List (String × Json) → Run Assembly
  | [] => return a
  | (code, property) :: rest => do
    let contents ← Property.Session.read scope options (Pointer.join path code)
      (a.contents.getD []) property
    readProperties path { a with contents := some contents } rest

/-- Takes a member other than variants. -/
def takeMember (draft : Draft) (key : String) (value : Json) (path : String) :
    Run (Outcome Draft) :=
  match key with
  | "className" =>
    return outcome draft ((Labels.read value).map fun className => { draft with className })
  | "elProperties" =>
    match value.expectObject with
    | .error violation => return (draft, some violation)
    | .ok properties =>
      store draft (readProperties scope options path draft.assembly properties) fun assembly =>
        .ok { draft with assembly }
  | "validRelease" => return outcome draft (value.expectObject.map fun _ => draft)
  | "firstRelease" => return outcome draft (value.expectString.map fun _ => draft)
  | key => return (draft, some (.unknownMember key))

mutual

/-- Reads a device or a variant into the assembly of its entry. -/
def read (path : String) (a : Assembly) : Json → Run Assembly
  | .obj members => do
    let draft ← readDraft path { assembly := a } members
    return draft.assembly.close options draft.className
  | other => do
    report path (.unexpectedType "object" other.typeName)
    return a

def readDraft (path : String) (draft : Draft) : List (String × Json) → Run Draft
  | [] => return draft
  | (key, value) :: rest => do
    let (changed, refusal) ←
      if key = "oneOf" then
        match value with
        | .arr variants =>
          store draft (readVariants (Pointer.join path key) draft.assembly 0 variants)
            fun assembly => .ok { draft with assembly }
        | other => pure (draft, some (.unexpectedType "array" other.typeName))
      else takeMember scope options draft key value (Pointer.join path key)
    refusal.forM (report (Pointer.join path key))
    readDraft path changed rest

def readVariants (path : String) (a : Assembly) (position : Nat) : List Json → Run Assembly
  | [] => return a
  | variant :: rest => do
    let a ← read (Pointer.join path (toString position)) a variant
    readVariants path a (position + 1) rest

end

variable {scope options} {path : String} {a : Assembly} {draft : Device.Draft}

/-- The draft with its trace played on what had been assembled before. -/
def Draft.ofTrace (options : Options) (a : Assembly) (draft : Device.Draft) : Draft :=
  { className := draft.className, assembly := a.replay options draft.trace }

/-- A member that is taken in a session, by what it does to the trace. -/
def played (options : Options) (a : Assembly) (taken : Taken Device.Draft) : Taken Draft :=
  { taken with record := .ofTrace options a taken.record }

theorem realizes_readProperties (path : String) (a : Assembly)
    (properties : List (String × Json)) :
    Realizes [] path (readProperties scope options path a properties)
      ((Device.readProperties scope options properties).map (a.replay options)) := by
  induction properties generalizing a with
  | nil => exact realizes_pure a
  | cons entry rest ih =>
    obtain ⟨code, property⟩ := entry
    have hfirst : Realizes [] path (Property.Session.read scope options (Pointer.join path code)
          (a.contents.getD []) property)
        (((Property.read scope options property).map (a.contents.getD [] ++ ·)).within code) :=
      (Property.Session.realizes_read _ _ property).within
    exact hfirst.bind (f := fun contents =>
      readProperties scope options path { a with contents := some contents } rest) (ih _)

/-- A member that extends the trace plays its events. -/
theorem realizes_extend {run : Run Assembly} {events : Noted (List Event)}
    (h : Realizes [] path run (events.map ((a.replay options draft.trace).replay options))) :
    Realizes [] path
      (store (Draft.ofTrace options a draft) run fun assembly =>
        .ok { Draft.ofTrace options a draft with assembly })
      (noted (played options a (draft.extend events))) := by
  refine (realizes_store h).congr ?_
  simp only [noted, played, Device.Draft.extend, Taken.store, Taken.ofExcept, Draft.ofTrace,
    Assembly.replay_append, Noted.map]

theorem realizes_takeMember (a : Assembly) (draft : Device.Draft) (key : String) (value : Json)
    (path : String) :
    Realizes [] path (takeMember scope options (.ofTrace options a draft) key value path)
      (noted (played options a (draft.takeMember scope options key value))) := by
  unfold takeMember
  split
  · simp only [Device.Draft.takeMember]
    cases Labels.read value <;> exact realizes_pure _
  · simp only [Device.Draft.takeMember]
    cases value.expectObject with
    | error v => exact realizes_pure _
    | ok properties => exact realizes_extend (realizes_readProperties path _ properties)
  · simp only [Device.Draft.takeMember]
    cases value.expectObject <;> exact realizes_pure _
  · simp only [Device.Draft.takeMember]
    cases value.expectString <;> exact realizes_pure _
  · have hunknown : draft.takeMember scope options key value =
        .refused draft (.unknownMember key) := by
      unfold Device.Draft.takeMember
      split <;> first | contradiction | rfl
    rw [hunknown]
    exact realizes_pure _

theorem readDraft_cons_of_ne {draft : Draft} {key : String} {value : Json}
    {rest : List (String × Json)} (h : key ≠ "oneOf") :
    readDraft scope options path draft ((key, value) :: rest) = (do
      let (changed, refusal) ← takeMember scope options draft key value (Pointer.join path key)
      refusal.forM (report (Pointer.join path key))
      readDraft scope options path changed rest) := by
  cases value <;> simp only [readDraft, if_neg h]

mutual

/-- In a session a device plays the trace that it has on its own. -/
theorem realizes_read (path : String) (a : Assembly) (device : Json) :
    Realizes [] path (read scope options path a device)
      ((Device.read scope options device).map (a.replay options)) := by
  cases device with
  | obj members =>
    have hdraft := realizes_readDraft path a {} members
    simp only [read, Device.read]
    refine (hdraft.map fun draft => draft.assembly.close options draft.className).congr ?_
    simp only [Noted.map, Device.Draft.finish, Assembly.replay_append]
    rfl
  | _ =>
    simp only [read, Device.read]
    exact (realizes_report _).map fun _ => a

theorem realizes_readDraft (path : String) (a : Assembly) (draft : Device.Draft)
    (members : List (String × Json)) :
    Realizes [] path (readDraft scope options path (.ofTrace options a draft) members)
      ((Device.readDraft scope options draft members).map (.ofTrace options a)) := by
  cases members with
  | nil => exact realizes_pure _
  | cons member rest =>
    obtain ⟨key, value⟩ := member
    have hrest (changed : Device.Draft) := realizes_readDraft path a changed rest
    by_cases hkey : key = "oneOf"
    · subst hkey
      cases value with
      | arr variants =>
        have hvariants := realizes_readVariants (Pointer.join path "oneOf")
          (a.replay options draft.trace) 0 variants
        simp only [readDraft, Device.readDraft, if_true]
        exact realizes_member (f := fun changed => readDraft scope options path changed rest)
          (realizes_extend hvariants) (hrest _)
      | _ =>
        simp only [readDraft, Device.readDraft, if_true]
        exact realizes_member (f := fun changed => readDraft scope options path changed rest)
          (realizes_refused _ _) (hrest _)
    · rw [readDraft_cons_of_ne hkey, Device.readDraft_cons_of_ne hkey]
      exact realizes_member (f := fun changed => readDraft scope options path changed rest)
        (realizes_takeMember a draft key value _) (hrest _)

theorem realizes_readVariants (path : String) (a : Assembly) (position : Nat)
    (variants : List Json) :
    Realizes [] path (readVariants scope options path a position variants)
      ((Device.readVariants scope options position variants).map (a.replay options)) := by
  cases variants with
  | nil => exact realizes_pure a
  | cons variant rest =>
    have hfirst := (realizes_read (Pointer.join path (toString position)) a variant).within
    have hlater := realizes_readVariants path
      (a.replay options (Device.read scope options variant).value) (position + 1) rest
    have hall := hfirst.bind
      (f := fun a => readVariants scope options path a (position + 1) rest) hlater
    simp only [readVariants, Device.readVariants]
    refine hall.congr ?_
    simp [Noted.map, Noted.within, Assembly.replay_append]

end

end Session
end DeviceTwin.Device
