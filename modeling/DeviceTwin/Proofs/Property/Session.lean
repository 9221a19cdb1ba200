import DeviceTwin.Proofs.Descriptor.Session
import DeviceTwin.Proofs.Notes
import DeviceTwin.Proofs.Property.Draft

/-!
Properties in a session. A property appends its contents to those that are there already, and so do
its variants while its members are taken; everything found is recorded by the session. The contents
that it adds and what is recorded are those of the property on its own.
-/
namespace DeviceTwin.Property

/-- The draft with contents in front of its own. -/
def Draft.behind (prior : List Content) (draft : Draft) : Draft :=
  { draft with contents := prior ++ draft.contents }

theorem readDraft_cons_of_ne {scope : Scope} {options : Options} {draft : Draft} {key : String}
    {value : Json} {rest : List (String × Json)} (h : key ≠ "oneOf") :
    readDraft scope options draft ((key, value) :: rest) =
      ⟨(readDraft scope options (draft.takeMember scope key value).record rest).value,
        (draft.takeMember scope key value).findingsUnder key ++
          (readDraft scope options (draft.takeMember scope key value).record rest).findings⟩ := by
  cases value <;> simp only [readDraft, if_neg h]

/-- The variants of a property put their contents behind those that are there. -/
theorem readDraft_behind (scope : Scope) (options : Options) (prior : List Content) (draft : Draft)
    (members : List (String × Json)) : readDraft scope options (draft.behind prior) members =
      (readDraft scope options draft members).map (Draft.behind prior) := by
  have hmember (draft later : Draft) (key : String) (value : Json)
      (hlater : later = draft.behind prior) :
      (Draft.take scope options later key value).record =
          (Draft.take scope options draft key value).record.behind prior ∧
        (Draft.take scope options later key value).findingsUnder key =
          (Draft.take scope options draft key value).findingsUnder key := by
    refine ⟨?_, (orderFree_take scope options).findingsUnder_eq draft later key value⟩
    subst hlater
    rw [Draft.record_take, Draft.record_take]
    simp only [Draft.behind, Draft.mk.injEq, true_and]
    by_cases hkey : key = "oneOf"
    · subst hkey
      rw [changeAt_self, changeAt_self]
      cases readContents scope options value with
      | error v => rfl
      | ok contents => exact List.append_assoc ..
    · rw [changeAt_of_ne hkey, changeAt_of_ne hkey]
  rw [readDraft_eq_readMembers, readDraft_eq_readMembers]
  obtain ⟨hvalue, hfindings⟩ :
      (readMembers (Draft.take scope options) (draft.behind prior) members).value =
          (readMembers (Draft.take scope options) draft members).value.behind prior ∧
        (readMembers (Draft.take scope options) (draft.behind prior) members).findings =
          (readMembers (Draft.take scope options) draft members).findings :=
    readMembers_related (fun draft later key value _ => hmember draft later key value) rfl
  exact Noted.ext hvalue hfindings

namespace Session

open Descriptor.Session

variable (scope : Scope) (options : Options)

/-- The contents for one shape of the property, which is found at a path. -/
def contentsOf (property : Property) (index : Nat) (shape : Shape) (path : String) :
    Run (List Content) :=
  match Content.make options index property.access property.labels shape with
  | .ok contents => return contents
  | .error violation => do
    report path violation
    return []

/-- The contents for alternatives, the first of which stands at `position`. -/
def alternativeContents (property : Property) (path : String) (position : Nat) :
    List Shape → Run (List Content)
  | [] => return []
  | shape :: rest => do
    let first ← contentsOf options property (position + 1) shape
      (Pointer.join path (toString position))
    let later ← alternativeContents property path (position + 1) rest
    return first ++ later

def contents (property : Property) (path : String) : Run (List Content) :=
  match property.shape.kind with
  | .oneOf alternatives =>
    alternativeContents options property (Pointer.join (Pointer.join path "data") "oneOf") 0
      alternatives
  | _ => contentsOf options property 0 property.shape path

def takeRule (access : Access) (key : String) (value : Json) (_path : String) :
    Run (Outcome Access) :=
  let taken := Property.takeRule access key value
  return (taken.record, taken.refusal)

/-- Takes a member other than variants. -/
def takeMember (draft : Draft) (key : String) (value : Json) (path : String) :
    Run (Outcome Draft) :=
  match key with
  | "accessRule" =>
    match value.expectObject with
    | .error violation => return (draft, some violation)
    | .ok members =>
      store draft (takeMembers takeRule path {} members) fun access =>
        .ok { draft with property := { draft.property with access } }
  | "data" =>
    match value.expectObject with
    | .error violation => return (draft, some violation)
    | .ok _ =>
      store draft (Descriptor.Session.read scope value path) fun shape =>
        .ok { draft with property := { draft.property with shape } }
  | key =>
    -- Any other member is settled by its value alone.
    let taken := draft.takeMember scope key value
    return (taken.record, taken.refusal)

/-- The property comes behind its variants. A mere wrapper around variants has no contents. -/
def finish (path : String) (draft : Draft) : Run (List Content) :=
  if draft.hasVariants && draft.property.shape.kind.tag?.isNone then return draft.contents
  else do
    let own ← contents options draft.property path
    return draft.contents ++ own

mutual

/-- Reads a property and appends its contents to those that are there. -/
def read (path : String) (there : List Content) : Json → Run (List Content)
  | .obj members => do
    let draft ← readDraft path { contents := there } members
    finish options path draft
  | other => do
    report path (.unexpectedType "object" other.typeName)
    return there

def readDraft (path : String) (draft : Draft) : List (String × Json) → Run Draft
  | [] => return draft
  | (key, value) :: rest => do
    let (changed, refusal) ←
      if key = "oneOf" then
        match value with
        | .arr variants =>
          let reading := readVariants (Pointer.join path key) draft.contents 0 variants
          store draft reading fun contents => .ok { draft with hasVariants := true, contents }
        | other => pure (draft, some (.unexpectedType "array" other.typeName))
      else takeMember scope draft key value (Pointer.join path key)
    refusal.forM (report (Pointer.join path key))
    readDraft path changed rest

def readVariants (path : String) (there : List Content) (position : Nat) :
    List Json → Run (List Content)
  | [] => return there
  | variant :: rest => do
    let there ← read (Pointer.join path (toString position)) there variant
    readVariants path there (position + 1) rest

end

variable {scope options} {active : List String} {path : String} {draft : Draft}
  {property : Property} {prior : List Content}

theorem realizes_contentsOf (index : Nat) (shape : Shape) :
    Realizes active path (contentsOf options property index shape path)
      (Property.contentsOf options property index shape) := by
  unfold contentsOf Property.contentsOf
  cases Content.make options index property.access property.labels shape with
  | ok contents => exact realizes_pure contents
  | error v => exact (realizes_report v).map fun _ => ([] : List Content)

theorem realizes_alternativeContents (position : Nat) (shapes : List Shape) :
    Realizes active path (alternativeContents options property path position shapes)
      (Property.alternativeContents options property position shapes) := by
  induction shapes generalizing position with
  | nil => exact realizes_pure []
  | cons shape rest ih =>
    have hfirst : Realizes active path
        (contentsOf options property (position + 1) shape (Pointer.join path (toString position)))
        ((Property.contentsOf options property (position + 1) shape).within (toString position)) :=
      (realizes_contentsOf (position + 1) shape).within
    exact hfirst.bind (f := fun first =>
      alternativeContents options property path (position + 1) rest >>= fun later =>
        pure (first ++ later)) ((ih (position + 1)).map _)

theorem realizes_contents (property : Property) :
    Realizes active path (contents options property path) (property.contents options) := by
  unfold contents Property.contents
  cases property.shape.kind with
  | oneOf alternatives => exact (realizes_alternativeContents 0 alternatives).within.within
  | _ => exact realizes_contentsOf 0 property.shape

theorem realizes_takeMember (draft : Draft) (key : String) (value : Json) (path : String) :
    Realizes [] path (takeMember scope draft key value path)
      (noted (draft.takeMember scope key value)) := by
  have hrule (access : Access) (key : String) (value : Json) (path : String) :
      Realizes [] path (takeRule access key value path)
        (noted (Property.takeRule access key value)) :=
    realizes_settled (Taken.findings_ofExcept _)
  by_cases haccess : key = "accessRule"
  · subst haccess
    simp only [takeMember, Draft.takeMember, Draft.takeAccess]
    cases value.expectObject with
    | error v => exact realizes_refused draft v
    | ok members => exact realizes_store (realizes_takeMembers hrule {} members)
  by_cases hdata : key = "data"
  · subst hdata
    simp only [takeMember, Draft.takeMember, Draft.takeData]
    cases value.expectObject with
    | error v => exact realizes_refused draft v
    | ok fields => exact realizes_store (Descriptor.Session.realizes_read scope value path)
  · simp only [takeMember]
    refine realizes_settled ?_
    unfold Draft.takeMember
    split <;> simp_all [Draft.takeLabels, Taken.refused]

/-- A property is finished as it would be alone, behind the contents that were there. -/
theorem realizes_finish (draft : Draft) :
    Realizes active path (finish options path (draft.behind prior))
      ((Draft.finish options ⟨draft, []⟩).map (prior ++ ·)) := by
  have hown : Realizes active path (contents options draft.property path >>= fun own =>
      pure (prior ++ draft.contents ++ own))
      ((draft.property.contents options).map (prior ++ draft.contents ++ ·)) :=
    (realizes_contents draft.property).map _
  unfold finish Draft.finish
  by_cases hwrapper : draft.hasVariants && draft.property.shape.kind.tag?.isNone
  · simp only [Draft.behind, hwrapper, if_true]
    exact realizes_pure _
  · simp only [Draft.behind, hwrapper]
    refine hown.congr ?_
    simp [Noted.map]

theorem finish_eq (n : Noted Draft) : Draft.finish options n =
    ⟨(Draft.finish options ⟨n.value, []⟩).value,
      n.findings ++ (Draft.finish options ⟨n.value, []⟩).findings⟩ := by
  simp only [Draft.finish]
  split <;> simp

theorem readDraft_cons_of_ne {key : String} {value : Json} {rest : List (String × Json)}
    (h : key ≠ "oneOf") : readDraft scope options path draft ((key, value) :: rest) = (do
      let (changed, refusal) ← takeMember scope draft key value (Pointer.join path key)
      refusal.forM (report (Pointer.join path key))
      readDraft scope options path changed rest) := by
  cases value <;> simp only [readDraft, if_neg h]

mutual

/-- In a session a property adds the contents that it has on its own. -/
theorem realizes_read (path : String) (there : List Content) (property : Json) :
    Realizes [] path (read scope options path there property)
      ((Property.read scope options property).map (there ++ ·)) := by
  cases property with
  | obj members =>
    have hdraft := realizes_readDraft path (Draft.behind there {}) members
    rw [readDraft_behind] at hdraft
    have hempty : Draft.behind there {} = { contents := there } := by simp [Draft.behind]
    have hall := hdraft.bind (f := finish options path) (realizes_finish _)
    rw [hempty] at hall
    simp only [read, Property.read]
    rw [finish_eq]
    exact hall
  | _ =>
    simp only [read, Property.read]
    refine ((realizes_report _).map fun _ => there).congr ?_
    simp [Noted.map, Noted.refused]

theorem realizes_readDraft (path : String) (draft : Draft) (members : List (String × Json)) :
    Realizes [] path (readDraft scope options path draft members)
      (Property.readDraft scope options draft members) := by
  cases members with
  | nil => exact realizes_pure draft
  | cons member rest =>
    obtain ⟨key, value⟩ := member
    have hrest (changed : Draft) := realizes_readDraft path changed rest
    by_cases hkey : key = "oneOf"
    · subst hkey
      cases value with
      | arr variants =>
        have hvariants :=
          realizes_readVariants (Pointer.join path "oneOf") draft.contents 0 variants
        have htaken : Realizes [] (Pointer.join path "oneOf")
            (store draft (readVariants scope options (Pointer.join path "oneOf") draft.contents 0
              variants) fun contents => .ok { draft with hasVariants := true, contents })
            (noted (draft.takeVariants (Property.readVariants scope options 0 variants))) :=
          realizes_store hvariants
        simp only [readDraft, Property.readDraft, if_true]
        exact realizes_member (f := fun changed => readDraft scope options path changed rest)
          htaken (hrest _)
      | _ =>
        simp only [readDraft, Property.readDraft, if_true]
        exact realizes_member (f := fun changed => readDraft scope options path changed rest)
          (realizes_refused draft _) (hrest _)
    · rw [readDraft_cons_of_ne hkey, Property.readDraft_cons_of_ne hkey]
      exact realizes_member (f := fun changed => readDraft scope options path changed rest)
        (realizes_takeMember draft key value _) (hrest _)

theorem realizes_readVariants (path : String) (there : List Content) (position : Nat)
    (variants : List Json) :
    Realizes [] path (readVariants scope options path there position variants)
      ((Property.readVariants scope options position variants).map (there ++ ·)) := by
  cases variants with
  | nil => exact (realizes_pure there).congr (by simp [Property.readVariants, Noted.map])
  | cons variant rest =>
    have hfirst := (realizes_read (Pointer.join path (toString position)) there variant).within
    have hlater := realizes_readVariants path (there ++ (Property.read scope options variant).value)
      (position + 1) rest
    have hall := hfirst.bind
      (f := fun there => readVariants scope options path there (position + 1) rest) hlater
    simp only [readVariants, Property.readVariants]
    refine hall.congr ?_
    simp [Noted.map, Noted.within]

end

end Session
end DeviceTwin.Property
