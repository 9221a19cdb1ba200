import DeviceTwin.Proofs.Agreement
import DeviceTwin.Proofs.Interface.Identifiers

/-!
Interfaces under other labels. The namespace is written in identifiers and the context beside them;
whether anything is made, and everything else in it, does not depend on them.
-/
namespace DeviceTwin

/-- Both identify the same segment, each in its own namespace. -/
def SameSegment (o o' : Options) (id id' : String) : Prop :=
  ∃ segment, o.IsUrn segment id ∧ o'.IsUrn segment id'

/-- The same payload with an identifier in another namespace. -/
structure CommandPayload.Relabelled (o o' : Options) (payload payload' : CommandPayload) :
    Prop where
  id : SameSegment o o' payload.id payload'.id
  same : { payload' with id := payload.id } = payload

/-- The same entry with identifiers in another namespace and another context. -/
structure Content.Relabelled (o o' : Options) (content content' : Content) : Prop where
  id : Option.Rel (SameSegment o o') content.id content'.id
  context : content.context = o.context ∧ content'.context = o'.context
  request : Option.Rel (CommandPayload.Relabelled o o') content.request content'.request
  response : Option.Rel (CommandPayload.Relabelled o o') content.response content'.response
  same : { content' with
    id := content.id, context := content.context, request := content.request,
    response := content.response } = content

/-- The same interface with identifiers in another namespace and another context. -/
structure Interface.Relabelled (o o' : Options) (interface interface' : Interface) : Prop where
  id : SameSegment o o' interface.id interface'.id
  context : interface.context = o.context ∧ interface'.context = o'.context
  contents : List.Forall₂ (Content.Relabelled o o') interface.contents interface'.contents
  same : { interface' with
    id := interface.id, context := interface.context,
    contents := interface.contents } = interface

variable (o o' : Options) {index : Nat} {access : Access} {labels : Labels} {shape : Shape}
  {role : Role} {ja : Option String} {en : String}

theorem sameSegment_urn (name : String) : SameSegment o o' (o.urn name) (o'.urn name) :=
  ⟨name, rfl, rfl⟩

theorem CommandPayload.agree_make :
    Agree (Relabelled o o') (make o ja en shape) (make o' ja en shape) :=
  .after _ fun _ => .ok ⟨sameSegment_urn o o' _, rfl⟩

namespace Content

theorem relabelled_stateCommand (entry : StateEntry) :
    Relabelled o o' (stateCommand o entry) (stateCommand o' entry) :=
  ⟨.none, ⟨rfl, rfl⟩, .none, .none, rfl⟩

theorem agree_entry :
    Agree (Relabelled o o') (entry o index ja en role shape) (entry o' index ja en role shape) := by
  have hid := fun name => Option.Rel.some (sameSegment_urn o o' (if index = 0 then name else
    name ++ toString (index + 1)))
  unfold entry
  split
  · refine (CommandPayload.agree_make o o').bind fun payload payload' hpayload => .ok ?_
    refine ⟨hid _, ⟨rfl, rfl⟩, .some hpayload, .some hpayload, rfl⟩
  · exact .after _ fun schema => .ok ⟨hid _, ⟨rfl, rfl⟩, .none, .none, rfl⟩
  · exact .after _ fun schema => .ok ⟨hid _, ⟨rfl, rfl⟩, .none, .none, rfl⟩

/-- Entries are made under both options or under none. -/
theorem agree_make :
    Agree (List.Forall₂ (Relabelled o o')) (make o index access labels shape)
      (make o' index access labels shape) := by
  unfold make
  split
  · exact .ok .nil
  · refine .after _ fun role => ?_
    split
    · next entries _ _ =>
      refine .ok ?_
      rw [List.forall₂_map_left_iff, List.forall₂_map_right_iff, List.forall₂_same]
      exact fun entry _ => relabelled_stateCommand o o' entry
    · exact (agree_entry o o').bind fun content content' hcontent => .ok (.cons hcontent .nil)

end Content

theorem Interface.relabelled_make {contents contents' : List Content}
    (h : List.Forall₂ (Content.Relabelled o o') contents contents') :
    Relabelled o o' (make o ja en contents) (make o' ja en contents') :=
  ⟨sameSegment_urn o o' _, ⟨rfl, rfl⟩, h, rfl⟩

end DeviceTwin
