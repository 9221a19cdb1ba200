import DeviceTwin.Proofs.Json.Numeral
import DeviceTwin.Proofs.Json.Reader

/-!
The tokens of a value. They are read as the value wherever one is due, if its containers are nested
within the limit and its objects have distinct keys.
-/
namespace DeviceTwin

namespace Entries

variable {κ α : Type} [DecidableEq κ] {key : κ} {value : α} {entries done : List (κ × α)}

theorem put_of_not_mem (h : key ∉ entries.map (·.1)) :
    put key value entries = entries ++ [(key, value)] := by
  induction entries with
  | nil => rfl
  | cons entry rest ih =>
    rw [List.map_cons, List.mem_cons, not_or] at h
    rw [put, if_neg (Ne.symm h.1), ih h.2, List.cons_append]

/-- Entries under keys of their own stay as they are. -/
theorem distinct_eq_self (h : (entries.map (·.1)).Nodup) : distinct entries = entries := by
  have hfrom : ∀ done : List (κ × α), ((done ++ entries).map (·.1)).Nodup →
      entries.foldl (fun done entry => put entry.1 entry.2 done) done = done ++ entries := by
    clear h
    induction entries with
    | nil => exact fun done _ => (List.append_nil done).symm
    | cons entry rest ih =>
      obtain ⟨key, value⟩ := entry
      intro done hkeys
      have hnew : key ∉ done.map (·.1) := by
        rw [List.map_append, List.nodup_append] at hkeys
        exact fun hm => hkeys.2.2 key hm key List.mem_cons_self rfl
      rw [List.foldl_cons, put_of_not_mem hnew, ih _ (by rwa [List.append_assoc]),
        List.append_assoc, List.singleton_append]
  exact hfrom [] h

end Entries

namespace Json

/-- `Readable n value`: the value can be written and read back. Its containers are nested at most
`n` deep, its numbers are integers that fit in 64 bits, and no object has two members under one
key. -/
inductive Readable : Nat → Json → Prop
  | null {n} : Readable n .null
  | bool {n b} : Readable n (.bool b)
  | str {n s} : Readable n (.str s)
  | int {n i} (h : Numeral.Fits i) : Readable n (.int i)
  | arr {n items} (hitems : ∀ item ∈ items, Readable n item) : Readable (n + 1) (.arr items)
  | obj {n members} (hkeys : (keys members).Nodup)
      (hmembers : ∀ member ∈ members, Readable n member.2) : Readable (n + 1) (.obj members)

theorem Readable.mono {n m : Nat} {value : Json} (h : Readable n value) (hle : n ≤ m) :
    Readable m value := by
  induction h generalizing m with
  | null => exact .null
  | bool => exact .bool
  | str => exact .str
  | int hfits => exact .int hfits
  | arr hitems ih =>
    obtain ⟨k, rfl⟩ : ∃ k, m = k + 1 := ⟨m - 1, by omega⟩
    exact .arr fun item hm => ih item hm (by omega)
  | obj hkeys hmembers ih =>
    obtain ⟨k, rfl⟩ : ∃ k, m = k + 1 := ⟨m - 1, by omega⟩
    exact .obj hkeys fun member hm => ih member hm (by omega)

mutual

/-- The tokens of a value in order. -/
def tokens : Json → List Token
  | .str s => [.text s]
  | .arr [] => [.openArray, .closeArray]
  | .arr (item :: rest) => .openArray :: (tokens item ++ (tokensOfItems rest ++ [.closeArray]))
  | .obj [] => [.openObject, .closeObject]
  | .obj ((key, value) :: rest) =>
    .openObject :: .text key :: .colon ::
      (tokens value ++ (tokensOfMembers rest ++ [.closeObject]))
  | value => [.scalar value]

/-- The tokens of items after the first, each with the comma before it. -/
def tokensOfItems : List Json → List Token
  | [] => []
  | item :: rest => .comma :: (tokens item ++ tokensOfItems rest)

/-- The tokens of members after the first, each with the comma before it. -/
def tokensOfMembers : List (String × Json) → List Token
  | [] => []
  | (key, value) :: rest =>
    .comma :: .text key :: .colon :: (tokens value ++ tokensOfMembers rest)

end

namespace Reading

variable {limit n : Nat} {outer : List Frame} {value : Json} {items : List Json}
  {members : List (String × Json)}

/-- No value begins with the end of an array, so a first item is read like any other value. -/
theorem foldlM_firstItem (value : Json) (outer : List Frame) (more : List Token) :
    (tokens value ++ more).foldlM (step limit) (.firstItem outer) =
      (tokens value ++ more).foldlM (step limit) (.dueValue (.array [] :: outer)) := by
  cases value with
  | arr items => cases items <;> simp only [tokens, List.cons_append, List.foldlM_cons, step]
  | obj members => cases members <;> simp only [tokens, List.cons_append, List.foldlM_cons, step]
  | _ => simp only [tokens, List.cons_append, List.foldlM_cons, step]

/-- Where there is room for `n` levels of nesting, the tokens of the value are read as it. -/
def Delivers (limit n : Nat) (value : Json) : Prop :=
  ∀ outer more, outer.length + n ≤ limit →
    (tokens value ++ more).foldlM (step limit) (.dueValue outer) =
      more.foldlM (step limit) (give value outer)

theorem foldlM_items (hitems : ∀ item ∈ items, Delivers limit n item)
    (hroom : outer.length + n + 1 ≤ limit) (before : List Json) (more : List Token) :
    (tokensOfItems items ++ more).foldlM (step limit) (.afterItem before outer) =
      more.foldlM (step limit) (.afterItem (items.reverse ++ before) outer) := by
  induction items generalizing before with
  | nil => rfl
  | cons item rest ih =>
    have hitem := hitems item List.mem_cons_self (.array before :: outer)
      (tokensOfItems rest ++ more) (by rw [List.length_cons]; omega)
    have hrest := ih (fun item hm => hitems item (List.mem_cons_of_mem _ hm)) (item :: before)
    rw [tokensOfItems, List.cons_append, List.append_assoc, List.foldlM_cons]
    calc (tokens item ++ (tokensOfItems rest ++ more)).foldlM (step limit)
          (.dueValue (.array before :: outer))
      _ = (tokensOfItems rest ++ more).foldlM (step limit) (.afterItem (item :: before) outer) :=
        hitem
      _ = more.foldlM (step limit) (.afterItem ((item :: rest).reverse ++ before) outer) := by
        rw [hrest, List.reverse_cons, List.append_assoc, List.singleton_append]

theorem foldlM_members (hmembers : ∀ member ∈ members, Delivers limit n member.2)
    (hroom : outer.length + n + 1 ≤ limit) (earlier : List (String × Json)) (more : List Token) :
    (tokensOfMembers members ++ more).foldlM (step limit) (.afterMember earlier outer) =
      more.foldlM (step limit) (.afterMember (members.reverse ++ earlier) outer) := by
  induction members generalizing earlier with
  | nil => rfl
  | cons member rest ih =>
    obtain ⟨key, value⟩ := member
    have hvalue := hmembers _ List.mem_cons_self (.object earlier key :: outer)
      (tokensOfMembers rest ++ more) (by rw [List.length_cons]; omega)
    have hrest := ih (fun member hm => hmembers member (List.mem_cons_of_mem _ hm))
      ((key, value) :: earlier)
    rw [tokensOfMembers, List.cons_append, List.cons_append, List.cons_append, List.append_assoc,
      List.foldlM_cons]
    calc (tokens value ++ (tokensOfMembers rest ++ more)).foldlM (step limit)
          (.dueValue (.object earlier key :: outer))
      _ = (tokensOfMembers rest ++ more).foldlM (step limit)
            (.afterMember ((key, value) :: earlier) outer) := hvalue
      _ = more.foldlM (step limit)
            (.afterMember (((key, value) :: rest).reverse ++ earlier) outer) := by
        rw [hrest, List.reverse_cons, List.append_assoc, List.singleton_append]

theorem delivers_arr (hitems : ∀ item ∈ items, Delivers limit n item) :
    Delivers limit (n + 1) (.arr items) := by
  intro outer more hroom
  have hopen : step limit (.dueValue outer) .openArray = some (.firstItem outer) :=
    if_pos (by omega)
  cases items with
  | nil => rw [tokens, List.cons_append, List.foldlM_cons, hopen]; rfl
  | cons item rest =>
    have hitem := hitems item List.mem_cons_self (.array [] :: outer)
      (tokensOfItems rest ++ ([Token.closeArray] ++ more)) (by rw [List.length_cons]; omega)
    have hrest := foldlM_items (fun item hm => hitems item (List.mem_cons_of_mem _ hm))
      (show outer.length + n + 1 ≤ limit by omega) [item] ([Token.closeArray] ++ more)
    rw [tokens, List.cons_append, List.foldlM_cons, hopen, List.append_assoc, List.append_assoc]
    calc (tokens item ++ (tokensOfItems rest ++ ([Token.closeArray] ++ more))).foldlM (step limit)
          (.firstItem outer)
      _ = (tokensOfItems rest ++ ([Token.closeArray] ++ more)).foldlM (step limit)
            (.afterItem [item] outer) := (foldlM_firstItem ..).trans hitem
      _ = ([Token.closeArray] ++ more).foldlM (step limit)
            (.afterItem (rest.reverse ++ [item]) outer) := hrest
      _ = more.foldlM (step limit) (give (.arr (rest.reverse ++ [item]).reverse) outer) := rfl
      _ = more.foldlM (step limit) (give (.arr (item :: rest)) outer) := by
        rw [← List.reverse_cons, List.reverse_reverse]

theorem delivers_obj (hkeys : (keys members).Nodup)
    (hmembers : ∀ member ∈ members, Delivers limit n member.2) :
    Delivers limit (n + 1) (.obj members) := by
  intro outer more hroom
  have hopen : step limit (.dueValue outer) .openObject = some (.firstName outer) :=
    if_pos (by omega)
  cases members with
  | nil => rw [tokens, List.cons_append, List.foldlM_cons, hopen]; rfl
  | cons member rest =>
    obtain ⟨key, value⟩ := member
    have hvalue := hmembers _ List.mem_cons_self (.object [] key :: outer)
      (tokensOfMembers rest ++ ([Token.closeObject] ++ more)) (by rw [List.length_cons]; omega)
    have hrest := foldlM_members (fun member hm => hmembers member (List.mem_cons_of_mem _ hm))
      (show outer.length + n + 1 ≤ limit by omega) [(key, value)] ([Token.closeObject] ++ more)
    rw [tokens, List.cons_append, List.foldlM_cons, hopen, List.cons_append, List.cons_append,
      List.append_assoc, List.append_assoc]
    calc (tokens value ++ (tokensOfMembers rest ++ ([Token.closeObject] ++ more))).foldlM
          (step limit) (.dueValue (.object [] key :: outer))
      _ = (tokensOfMembers rest ++ ([Token.closeObject] ++ more)).foldlM (step limit)
            (.afterMember [(key, value)] outer) := hvalue
      _ = ([Token.closeObject] ++ more).foldlM (step limit)
            (.afterMember (rest.reverse ++ [(key, value)]) outer) := hrest
      _ = more.foldlM (step limit)
            (give (.obj (Entries.distinct (rest.reverse ++ [(key, value)]).reverse)) outer) := rfl
      _ = more.foldlM (step limit) (give (.obj ((key, value) :: rest)) outer) := by
        rw [← List.reverse_cons, List.reverse_reverse, Entries.distinct_eq_self hkeys]

/-- The tokens of a value that is not nested too deep are read as it. -/
theorem delivers_of_readable (h : Readable n value) : Delivers limit n value := by
  induction h with
  | arr _ ih => exact delivers_arr ih
  | obj hkeys _ ih => exact delivers_obj hkeys ih
  | _ =>
    intro outer more _
    simp only [tokens, int]
    rfl

end Reading

end Json
end DeviceTwin
