import DeviceTwin.Proofs.Descriptor.Places
import DeviceTwin.Proofs.Json.Pointer

/-!
Paths of diagnostics on a descriptor. Behind its base every path is a pointer that can be followed
from the descriptor: down into members and items, and from a reference on in the definition that
it names.
-/
namespace DeviceTwin

theorem Pointer.renderFrom_eq_append (base : String) (p : Pointer) :
    p.renderFrom base = base ++ p.renderFrom "" := by
  apply String.toList_inj.mp
  rw [String.toList_append, toList_renderFrom, toList_renderFrom, String.toList_empty,
    List.nil_append]

namespace Descriptor

variable {definitions : List (String × Json)} {value part : Json} {segment : String}
  {pointer : Pointer}

/-- Where a pointer goes on behind a part: in the definition that a reference names, and in the part
itself otherwise. -/
def behind? (definitions : List (String × Json)) (segment : String) (part : Json) : Option Json :=
  match segment, part with
  | "$ref", .str reference => (definitionName? reference).bind fun name => definitions.lookup name
  | _, part => some part

/-- What a pointer leads to, through references. A reference that is the last segment stands for its
own text. -/
def follow? (definitions : List (String × Json)) (value : Json) : Pointer → Option Json
  | [] => some value
  | [segment] => Pointer.child? value segment
  | segment :: next :: rest => do
    let part ← Pointer.child? value segment
    follow? definitions (← behind? definitions segment part) (next :: rest)

/-- A part that pointers go on in is no text, so that they go on in the part itself. -/
theorem behind?_of_leads {next : String} {rest : Pointer}
    (h : Leads definitions part (next :: rest)) : behind? definitions segment part = some part := by
  obtain ⟨_, hstep, _⟩ := h
  unfold behind?
  split
  · cases hstep with
    | child hchild => cases hchild
  · rfl

theorem exists_follow?_of_leads (h : Leads definitions value pointer) :
    ∃ part, follow? definitions value pointer = some part := by
  induction pointer generalizing value with
  | nil => exact ⟨value, rfl⟩
  | cons segment rest ih =>
    obtain ⟨part, hstep, hrest⟩ := h
    cases rest with
    | nil =>
      -- The last segment names a member or an item, be it a reference or not.
      cases hstep with
      | child hchild => exact ⟨part, hchild⟩
      | reference hlookup _ _ => exact ⟨_, hlookup⟩
    | cons next later =>
      obtain ⟨target, htarget⟩ := ih hrest
      refine ⟨target, ?_⟩
      cases hstep with
      | child hchild =>
        simp only [follow?, hchild, behind?_of_leads hrest, Option.bind_eq_bind, Option.bind_some]
        exact htarget
      | reference hlookup hname hdefined =>
        simp only [follow?, Pointer.child?_obj, hlookup, behind?, hname, hdefined,
          Option.bind_eq_bind, Option.bind_some]
        exact htarget

/-- The path of whatever is found in a descriptor is the base of the descriptor followed by the text
of a pointer, and the pointer leads to a value, from the descriptor on and through references. -/
theorem read_paths_lead (scope : Scope) (descriptor : Json) (base : String)
    (hdefs : (Json.obj scope.definitions).hasDistinctKeys) (hkeys : descriptor.hasDistinctKeys) :
    ∀ d ∈ (read scope descriptor).findings.map (·.diagnostic base), ∃ text pointer part,
      d.path = base ++ text ∧ Pointer.parse? text = some pointer ∧
        follow? scope.definitions descriptor pointer = some part := by
  intro d hd
  obtain ⟨f, hf, rfl⟩ := List.mem_map.mp hd
  obtain ⟨part, hpart⟩ := exists_follow?_of_leads (leads_read hdefs hkeys f hf)
  exact ⟨f.pointer.renderFrom "", f.pointer, part, Pointer.renderFrom_eq_append base f.pointer,
    Pointer.parse?_render f.pointer, hpart⟩

/-- One definition refers to another, and there are tildes and slashes in names. -/
def chainedScope : Scope :=
  { definitions := [
      ("a/b", .obj [("oneOf", .arr [.obj [("$ref", .str "#/definitions/c~1d")], .int 5])]),
      ("c~1d", .obj [("type", .str "level"), ("~/", .null)])]
    maxDepth := 8 }

def chainedDescriptor : Json :=
  .obj [("type", .str "object"), ("properties", .arr [.null,
    .obj [("element", .obj [("$ref", .str "#/definitions/a/b")])]])]

theorem read_paths_lead_chained :
    (Json.obj chainedScope.definitions).hasDistinctKeys ∧ chainedDescriptor.hasDistinctKeys ∧
    (read chainedScope chainedDescriptor).findings.map (·.diagnostic "/data") = [
      ⟨"/data/properties/0", .unexpectedType "object" "null"⟩,
      ⟨"/data/properties/1/element/$ref/oneOf/0/$ref/~0~1", .unknownMember "~/"⟩,
      ⟨"/data/properties/1/element/$ref/oneOf/1", .unexpectedType "object" "number"⟩] ∧
    ∀ d ∈ (read chainedScope chainedDescriptor).findings.map (·.diagnostic "/data"),
      ∃ text pointer part, d.path = "/data" ++ text ∧ Pointer.parse? text = some pointer ∧
        follow? chainedScope.definitions chainedDescriptor pointer = some part := by
  have hdefs : (Json.obj chainedScope.definitions).hasDistinctKeys := by decide
  have hkeys : chainedDescriptor.hasDistinctKeys := by decide
  exact ⟨hdefs, hkeys, by decide,
    read_paths_lead chainedScope chainedDescriptor "/data" hdefs hkeys⟩

end Descriptor
end DeviceTwin
