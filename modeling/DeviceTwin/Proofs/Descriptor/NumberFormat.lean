import DeviceTwin.Proofs.Descriptor.Merging
import DeviceTwin.Proofs.Descriptor.Nodes
import DeviceTwin.Proofs.Descriptor.Slots
import DeviceTwin.Proofs.Json.DistinctKeys

/-!
Formats of numbers and of their values. Values are read in the format that is known when they are
taken, and a format that comes later does not change them. Within one descriptor that cannot happen;
it can where the values come from a definition and a format stands behind the reference to it.
-/
namespace DeviceTwin

/-- The format of a number, and its values. -/
def Kind.number? {α : Type} : Kind α → Option (Option NumberFormat × Option NumberWords)
  | .number format numbers => some (format, numbers)
  | _ => none

theorem Kind.number?_eq_some_iff {α : Type} {kind : Kind α} {format : Option NumberFormat}
    {numbers : Option NumberWords} :
    kind.number? = some (format, numbers) ↔ kind = .number format numbers := by
  cases kind <;> simp [number?]

theorem Outline.finalKind_eq_number_iff {o : Outline} {format : Option NumberFormat}
    {numbers : Option NumberWords} : o.finalKind = .number format numbers ↔
      o.kind = some .number ∧ o.format = format ∧ o.numbers = numbers := by
  obtain ⟨kind, -⟩ := o
  cases kind with
  | none => simp [finalKind]
  | some kind => cases kind <;> simp [finalKind]

theorem NumberWords.format_of_read {format : NumberFormat} {items : List Json} {e : NumberWords}
    (h : NumberWords.read format items = .ok e) : e.format = format := by
  obtain ⟨numbers, -, hread⟩ := bind_eq_ok_iff.mp h
  cases hread
  rfl

namespace Descriptor

/-- The last format that members name. -/
def formatIn (members : List (String × Json)) : Option NumberFormat :=
  (members.filterMap fun (key, value) =>
    if key = Keyword.format.name then (readFormat value).toOption else none).getLast?

variable {scope : Scope} {below : Option Application} {active : List String} {o r : Outline}
  {key : String} {value : Json} {members : List (String × Json)} {e : NumberWords}

theorem formatIn_append (members later : List (String × Json)) :
    formatIn (members ++ later) = (formatIn later).or (formatIn members) := by
  rw [formatIn, List.filterMap_append, List.getLast?_append]
  rfl

theorem formatIn_cons (key : String) (value : Json) (later : List (String × Json)) :
    formatIn ((key, value) :: later) = (formatIn later).or (formatIn [(key, value)]) :=
  formatIn_append [(key, value)] later

theorem formatIn_eq_none (h : ∀ value, (Keyword.format.name, value) ∉ members) :
    formatIn members = none := by
  rw [formatIn, List.getLast?_eq_none_iff, List.filterMap_eq_nil_iff]
  rintro ⟨key, value⟩ hm
  refine if_neg ?_
  rintro rfl
  exact h value hm

theorem exists_mem_of_formatIn {format : NumberFormat} (h : formatIn members = some format) :
    ∃ value, (Keyword.format.name, value) ∈ members := by
  obtain ⟨⟨key, value⟩, hm, hvalue⟩ := List.mem_filterMap.mp (List.mem_of_getLast? h)
  by_cases hkey : key = Keyword.format.name
  · subst hkey
    exact ⟨value, hm⟩
  · simp [hkey] at hvalue

/-- New numbers are read in the format that is known. -/
theorem numbers_takeValues (h : (takeValues o value).record.numbers = some e) :
    o.numbers = some e ∨ ∃ items, value = .arr items ∧ o.format = some e.format ∧
      NumberWords.read e.format items = .ok e := by
  cases value with
  | arr items =>
    have hstates : (Taken.store o (readEntries items) o.addStates).record.numbers = o.numbers :=
      Taken.record_store (p := fun r : Outline => r.numbers = o.numbers) rfl (.map fun _ => rfl)
    simp only [takeValues, Json.expectArray] at h
    split at h
    · exact .inl (hstates ▸ h)
    · exact .inl (hstates ▸ h)
    · split at h
      · exact .inl h
      · next format hformat =>
        cases hread : NumberWords.read format items with
        | error violation =>
          rw [hread] at h
          exact .inl h
        | ok words =>
          have hadded : (Taken.ofExcept o (o.addNumbers words)).record =
              { o with numbers := o.numbers.or (some words) } := Outline.record_fill _ rfl
          have hslot := congrArg Outline.numbers hadded
          rw [hread] at h
          rcases Option.or_eq_some_iff.mp (hslot.symm.trans h) with hold | ⟨-, hnew⟩
          · exact .inl hold
          · cases hnew
            rw [NumberWords.format_of_read hread]
            exact .inr ⟨items, rfl, hformat, hread⟩
    · exact .inl h
  | _ => exact .inl h

/-- What a member does to the format, unless it is a reference that is followed. -/
theorem format_takeMember (h : below = none ∨ ∀ reference name target,
      ¬ Follows scope active o key value reference name target) :
    (takeMember scope below active o key value).record.format =
      (formatIn [(key, value)]).or o.format := by
  by_cases hkey : key = Keyword.format.name
  · subst hkey
    have hin : formatIn [(Keyword.format.name, value)] = (readFormat value).toOption := by
      cases hread : (readFormat value).toOption <;> simp [formatIn, hread]
    rw [takeMember_name, record_takeFormat, hin]
  · have hnone : formatIn [(key, value)] = none :=
      formatIn_eq_none fun _ hm => hkey (congrArg Prod.fst (List.mem_singleton.mp hm)).symm
    rw [hnone, (leaves_takeMember h).format hkey, Option.none_or]

/-- What a member does to the values, unless it is a reference that is followed. -/
theorem numbers_takeMember (h : below = none ∨ ∀ reference name target,
      ¬ Follows scope active o key value reference name target)
    (he : (takeMember scope below active o key value).record.numbers = some e) :
    o.numbers = some e ∨ ∃ items, key = Keyword.values.name ∧ value = .arr items ∧
      o.format = some e.format ∧ NumberWords.read e.format items = .ok e := by
  by_cases hkey : key = Keyword.values.name
  · subst hkey
    rw [takeMember_name] at he
    refine (numbers_takeValues he).imp_right ?_
    rintro ⟨items, hvalue, hread⟩
    exact ⟨items, rfl, hvalue, hread⟩
  · exact .inl (((leaves_takeMember h).numbers hkey).symm.trans he)

/-- The format after a merge is the last one that was merged. -/
theorem Merges.format_eq (h : Merges scope o members r) :
    r.format = (formatIn members).or o.format := by
  induction h with
  | nil => rfl
  | @own _ _ _ key value rest _ hown _ ih =>
    rw [ih, format_takeMember hown, formatIn_cons key value rest, Option.or_assoc]
  | noted _ ih => exact ih

/-- Numbers that a merge adds are read in the format that was the last before them. -/
theorem Merges.numbers_eq (h : Merges scope o members r) (he : r.numbers = some e) :
    o.numbers = some e ∨ ∃ before items after,
      members = before ++ (Keyword.values.name, .arr items) :: after ∧
      (formatIn before).or o.format = some e.format ∧ NumberWords.read e.format items = .ok e := by
  induction h with
  | nil => exact .inl he
  | @own below active o key value rest r hown _ ih =>
    rcases ih he with hnumbers | ⟨before, items, after, rfl, hformat, hread⟩
    · refine (numbers_takeMember hown hnumbers).imp id ?_
      rintro ⟨items, rfl, rfl, hformat, hread⟩
      exact ⟨[], items, rest, rfl, hformat, hread⟩
    · refine .inr ⟨(key, value) :: before, items, after, rfl, ?_, hread⟩
      rw [formatIn_cons key value before, Option.or_assoc, ← format_takeMember hown]
      exact hformat
  | noted _ ih => exact ih he

/-- Where the values of a number stand among the merged members, and the format they are read in. -/
structure Enumerates (scope : Scope) (c : Call) (before : List (String × Json)) (items : List Json)
    (after : List (String × Json)) (e : NumberWords) : Prop where
  members : mergedMembers scope (scope.maxDepth - c.depth) c.active c.descriptor c.outline =
    before ++ (Keyword.values.name, .arr items) :: after
  format : formatIn before = some e.format
  read : NumberWords.read e.format items = .ok e

theorem mergedMembers_of_no_reference {descriptor : Json} (level : Nat)
    (h : descriptor.get? Keyword.reference.name = none) :
    mergedMembers scope level active descriptor o = descriptor.members?.getD [] := by
  cases level with
  | zero => rw [mergedMembers]
  | succ level =>
    rw [mergedMembers]
    cases descriptor with
    | obj members =>
      refine collect_eq_self fun r key value hm => ?_
      have hf : followed? scope active r key value = none := by
        by_cases hk : key = Keyword.reference.name
        · subst hk
          have hnone := List.lookup_eq_none_iff.mp h _ hm
          simp at hnone
        · have hname : Keyword.ofName? key ≠ some .reference := mt Keyword.ofName?_eq_some_iff.mp hk
          simp [followed?, hname]
      rw [hf]
    | _ => rfl

/-- In one object there is no format behind the values. -/
theorem formatIn_after_values {before after : List (String × Json)} {format : NumberFormat}
    (hkeys : (Json.keys (before ++ (key, value) :: after)).Nodup)
    (h : formatIn before = some format) : formatIn after = none := by
  obtain ⟨known, hknown⟩ := exists_mem_of_formatIn h
  refine formatIn_eq_none fun later hlater => ?_
  rw [Json.keys, List.map_append, List.nodup_append] at hkeys
  exact hkeys.2.2 _ (mem_keys hknown) _ (mem_keys (List.mem_cons_of_mem _ hlater)) rfl

/-- The values of a number are words of the format that was the last before them. This is the format
of the number unless a different one comes after them, and within one object none can. -/
theorem number_width {descriptor : Json} {steps : Nat} {node : Shape}
    {format : Option NumberFormat} (hnode : node ∈ (read scope descriptor).value.nodesAt steps)
    (hkind : node.kind = .number format (some e)) :
    ∃ c before items after, Reached scope (.root descriptor) c ∧ c.outline = {} ∧
      node = (complete (serve scope c)).value ∧ Enumerates scope c before items after e ∧
      format = some ((formatIn after).getD e.format) ∧
      (format = some e.format ↔ ∀ later, formatIn after = some later → later = e.format) ∧
      (c.descriptor.hasDistinctKeys → c.descriptor.get? Keyword.reference.name = none →
        format = some e.format) := by
  rcases allNodes_read scope descriptor steps node hnode with rfl | ⟨c, hreached, hempty, rfl⟩
  · cases hkind
  obtain ⟨-, hformat, hnumbers⟩ := Outline.finalKind_eq_number_iff.mp hkind
  have hmerges : Merges scope c.outline
      (mergedMembers scope (scope.maxDepth - c.depth) c.active c.descriptor c.outline)
      (serve scope c).value := merges_apply scope _ _ _ _
  rcases hmerges.numbers_eq hnumbers with hnone | ⟨before, items, after, hmembers, hbefore, hread⟩
  · rw [hempty] at hnone
    cases hnone
  rw [hempty, Option.or_none] at hbefore
  have hwidth : format = some ((formatIn after).getD e.format) := by
    have hvalues : formatIn [(Keyword.values.name, .arr items)] = none := rfl
    rw [← hformat, hmerges.format_eq, hmembers, hempty, Option.or_none, formatIn_append,
      formatIn_cons _ _ after, hvalues, Option.or_none, hbefore]
    cases formatIn after <;> rfl
  refine ⟨c, before, items, after, hreached, hempty, rfl, ⟨hmembers, hbefore, hread⟩, hwidth,
    ?_, ?_⟩
  · rw [hwidth]
    cases formatIn after <;> simp
  · intro hkeys hreference
    rw [mergedMembers_of_no_reference _ hreference] at hmembers
    obtain ⟨depth, active, descriptor, o⟩ := c
    cases descriptor with
    | obj members =>
      obtain rfl : members = _ := hmembers
      have hafter := formatIn_after_values (Json.hasDistinctKeys_obj.mp hkeys).1 hbefore
      rw [hwidth, hafter]
      rfl
    | _ => cases before <;> cases hmembers

/-- A definition of percentages as signed bytes. -/
def percentScope : Scope :=
  { definitions := [("percent", .obj [("type", .str "number"), ("format", .str "int8"),
      ("enum", .arr [.int 200])])]
    maxDepth := 32 }

/-- A reference to the definition with a format of its own behind it. -/
def unsignedPercent : Json :=
  .obj [("$ref", .str "#/definitions/percent"), ("format", .str "uint8")]

/-- The number has the format of the reference, and its value is a word of the definition's. -/
theorem values_not_of_format :
    (read percentScope unsignedPercent).value.kind =
        .number (some .uint8) (some ⟨.int8, [200#8]⟩) ∧
      NumberWords.values ⟨.int8, [200#8]⟩ = [-56] ∧
      ¬ ∀ (scope : Scope) (descriptor : Json), ∀ steps,
        ∀ node ∈ (read scope descriptor).value.nodesAt steps, ∀ format e,
          node.kind = .number format (some e) → format = some e.format := by
  have hkind : (read percentScope unsignedPercent).value.kind =
      .number (some .uint8) (some ⟨.int8, [200#8]⟩) :=
    Kind.number?_eq_some_iff.mp (by decide +kernel)
  refine ⟨hkind, by decide, fun hsameFormat => ?_⟩
  have hformat := hsameFormat percentScope unsignedPercent 0 _ (List.mem_singleton_self _) _ _ hkind
  exact absurd hformat (by decide)

/-- The unsigned percentages stand one step down, as the items of an array. -/
theorem number_width_percent :
    ∃ node ∈ (read percentScope
        (.obj [("type", .str "array"), ("items", unsignedPercent)])).value.nodesAt 1,
      node.kind = .number (some .uint8) (some ⟨.int8, [200#8]⟩) ∧
      ∃ c before items after, Reached percentScope
          (.root (.obj [("type", .str "array"), ("items", unsignedPercent)])) c ∧ c.outline = {} ∧
        node = (complete (serve percentScope c)).value ∧
        Enumerates percentScope c before items after ⟨.int8, [200#8]⟩ ∧
        formatIn after = some .uint8 := by
  have hkinds : (((read percentScope (.obj [("type", .str "array"),
      ("items", unsignedPercent)])).value.nodesAt 1).map (·.kind.number?)) =
        [some (some .uint8, some ⟨.int8, [200#8]⟩)] := by
    decide +kernel
  obtain ⟨node, hnode, hnumber⟩ := List.mem_map.mp (hkinds ▸ List.mem_cons_self)
  have hkind := Kind.number?_eq_some_iff.mp hnumber
  obtain ⟨c, before, items, after, hreached, hempty, heq, henumerates, hformat, -⟩ :=
    number_width hnode hkind
  refine ⟨node, hnode, hkind, c, before, items, after, hreached, hempty, heq, henumerates, ?_⟩
  cases hafter : formatIn after with
  | none =>
    rw [hafter] at hformat
    exact absurd hformat (by decide)
  | some later =>
    rw [hafter] at hformat
    exact hformat.symm

end Descriptor
end DeviceTwin
