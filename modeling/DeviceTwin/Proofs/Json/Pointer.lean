import DeviceTwin.Json.Pointer

/-!
The text of a pointer determines the pointer. Escaping leaves no slash in a segment, so the text
falls apart into the segments again, and a text that goes on behind another one at a slash belongs
to a pointer that goes on behind the other pointer.
-/
namespace DeviceTwin

theorem splitSlash_ne_nil (cs : List Char) : splitSlash cs ≠ [] := by
  fun_cases splitSlash cs <;> simp

theorem splitSlash_cons {c : Char} (hc : c ≠ '/') (cs : List Char) :
    ∃ part parts, splitSlash cs = part :: parts ∧ splitSlash (c :: cs) = (c :: part) :: parts := by
  obtain ⟨part, parts, h⟩ := List.exists_cons_of_ne_nil (splitSlash_ne_nil cs)
  refine ⟨part, parts, h, ?_⟩
  rw [splitSlash]
  · rw [h]
  · exact hc

/-- A slash divides whatever stands around it. -/
theorem splitSlash_append_slash (before after : List Char) :
    splitSlash (before ++ '/' :: after) = splitSlash before ++ splitSlash after := by
  induction before with
  | nil => rfl
  | cons c before ih =>
    by_cases hc : c = '/'
    · subst c
      simp only [List.cons_append, splitSlash, ih]
    · obtain ⟨part, parts, h, hcons⟩ := splitSlash_cons hc before
      obtain ⟨part', parts', h', hcons'⟩ := splitSlash_cons hc (before ++ '/' :: after)
      rw [h', h, List.cons_append, List.cons.injEq] at ih
      rw [List.cons_append, hcons', hcons, ih.1, ih.2, List.cons_append]

theorem splitSlash_of_not_mem {cs : List Char} (h : '/' ∉ cs) : splitSlash cs = [cs] := by
  induction cs with
  | nil => rfl
  | cons c cs ih =>
    rw [List.mem_cons, not_or] at h
    obtain ⟨part, parts, hsplit, hcons⟩ := splitSlash_cons (Ne.symm h.1) cs
    rw [ih h.2, List.cons.injEq] at hsplit
    rw [hcons, ← hsplit.1, ← hsplit.2]

namespace Pointer

variable {base segment : String} {p q : Pointer}

theorem escapeChar_eq_singleton {c : Char} (htilde : c ≠ '~') (hslash : c ≠ '/') :
    escapeChar c = [c] := by
  unfold escapeChar
  split <;> simp_all

theorem slash_not_mem_escape (segment : String) : '/' ∉ escape segment := by
  intro h
  obtain ⟨c, _, hc⟩ := List.mem_flatMap.mp h
  by_cases htilde : c = '~'
  · simp [htilde, escapeChar] at hc
  · by_cases hslash : c = '/'
    · simp [hslash, escapeChar] at hc
    · rw [escapeChar_eq_singleton htilde hslash, List.mem_singleton] at hc
      exact hslash hc.symm

theorem unescape?_cons {c : Char} (hc : c ≠ '~') (rest : List Char) :
    unescape? (c :: rest) = (unescape? rest).map (c :: ·) := by
  rw [unescape?]
  · exact fun _ h => absurd h hc
  · exact fun _ h => absurd h hc
  · exact hc

theorem unescape?_flatMap_escapeChar (cs : List Char) :
    unescape? (cs.flatMap escapeChar) = some cs := by
  induction cs with
  | nil => rfl
  | cons c cs ih =>
    rw [List.flatMap_cons]
    by_cases htilde : c = '~'
    · subst c
      simp [escapeChar, unescape?, ih]
    · by_cases hslash : c = '/'
      · subst c
        simp [escapeChar, unescape?, ih]
      · rw [escapeChar_eq_singleton htilde hslash, List.singleton_append,
          unescape?_cons htilde, ih, Option.map_some]

theorem unescape?_escape (segment : String) : unescape? (escape segment) = some segment.toList :=
  unescape?_flatMap_escapeChar segment.toList

theorem escape_injective : Function.Injective escape := by
  intro a b h
  have heq : some a.toList = some b.toList := by rw [← unescape?_escape, ← unescape?_escape, h]
  exact String.toList_inj.mp (Option.some.inj heq)

/-- The text falls apart into that of its base and the escaped segments. -/
theorem splitSlash_renderFrom (base : String) (p : Pointer) :
    splitSlash (p.renderFrom base).toList = splitSlash base.toList ++ p.map escape := by
  induction p generalizing base with
  | nil => simp [renderFrom]
  | cons segment rest ih =>
    have hjoin : splitSlash (join base segment).toList =
        splitSlash base.toList ++ [escape segment] := by
      rw [join, String.toList_append, String.toList_ofList, splitSlash_append_slash,
        splitSlash_of_not_mem (slash_not_mem_escape segment)]
    calc splitSlash (renderFrom (join base segment) rest).toList
        = splitSlash (join base segment).toList ++ rest.map escape := ih (join base segment)
      _ = splitSlash base.toList ++ (segment :: rest).map escape := by
          rw [hjoin, List.append_assoc, List.map_cons, List.singleton_append]

theorem mapM_unescape? (p : Pointer) :
    (p.map escape).mapM (fun segment => (unescape? segment).map String.ofList) = some p := by
  induction p with
  | nil => rfl
  | cons segment rest ih =>
    rw [List.map_cons, List.mapM_cons, ih, unescape?_escape]
    simp

/-- Reading the text of a pointer gives the pointer. -/
theorem parse?_render (p : Pointer) : parse? (p.renderFrom "") = some p := by
  have hsplit : splitSlash (p.renderFrom "").toList = [] :: p.map escape :=
    splitSlash_renderFrom "" p
  rw [parse?, hsplit]
  exact mapM_unescape? p

/-- Escapes that are segments themselves, a slash and an empty segment. -/
example : parse? "/~01/~001/~1/" = some ["~1", "~01", "/", ""] := by decide

theorem renderFrom_append (base : String) (p q : Pointer) :
    (p ++ q).renderFrom base = q.renderFrom (p.renderFrom base) := List.foldl_append

/-- A path at `base`, or further down behind a slash. -/
def LiesAt (base path : String) : Prop := path = base ∨ ∃ rest, path = base ++ "/" ++ rest

theorem toList_renderFrom (base : String) (p : Pointer) :
    (p.renderFrom base).toList =
      base.toList ++ p.flatMap (fun segment => '/' :: escape segment) := by
  induction p generalizing base with
  | nil => simp [renderFrom]
  | cons segment rest ih =>
    have htail := ih (join base segment)
    rw [join, String.toList_append, String.toList_ofList, List.append_assoc] at htail
    rw [List.flatMap_cons]
    exact htail

theorem liesAt_renderFrom (base : String) (p : Pointer) : LiesAt base (p.renderFrom base) := by
  cases p with
  | nil => exact Or.inl rfl
  | cons segment rest =>
    right
    refine ⟨String.ofList (escape segment ++ rest.flatMap fun segment => '/' :: escape segment),
      String.toList_inj.mp ?_⟩
    rw [toList_renderFrom]
    simp

/-- What a pointer leads to lies below its beginnings, and below nothing else. -/
theorem liesAt_render_iff : LiesAt (p.renderFrom "") (q.renderFrom "") ↔ p <+: q := by
  have hsplit : ∀ p : Pointer, splitSlash (p.renderFrom "").toList = [[]] ++ p.map escape :=
    splitSlash_renderFrom ""
  constructor
  · rintro (heq | ⟨rest, heq⟩)
    · have hparse := parse?_render q
      rw [heq, parse?_render, Option.some.injEq] at hparse
      subst hparse
      exact List.prefix_refl p
    · have hparts : q.map escape = p.map escape ++ splitSlash rest.toList := by
        have htext : (q.renderFrom "").toList = (p.renderFrom "").toList ++ '/' :: rest.toList := by
          simp [heq]
        have := hsplit q
        rw [htext, splitSlash_append_slash, hsplit p, List.append_assoc] at this
        exact (List.append_cancel_left this).symm
      have hsegments : p.map escape <+: q.map escape := ⟨_, hparts.symm⟩
      exact (List.prefix_map_iff_of_injective escape_injective).mp hsegments
  · rintro ⟨later, rfl⟩
    rw [renderFrom_append]
    exact liesAt_renderFrom _ later

section Replacements

/-- Replaces a character wherever it stands. -/
def replaceChar (c : Char) (into cs : List Char) : List Char :=
  cs.flatMap fun d => if d = c then into else [d]

/-- Replaces two characters wherever they stand next to each other, from the left on. -/
def replacePair (first second into : Char) : List Char → List Char
  | [] => []
  | [c] => [c]
  | c :: d :: rest =>
    if c = first ∧ d = second then into :: replacePair first second into rest
    else c :: replacePair first second into (d :: rest)

/-- A segment without its escapes: first `~1` becomes a slash, then `~0` a tilde. -/
def unescaped (cs : List Char) : List Char :=
  replacePair '~' '0' '~' (replacePair '~' '1' '/' cs)

/-- The segments of a pointer text: what stands behind its slashes, without escapes. A text that is
not empty has to begin with a slash. -/
def segments? (s : String) : Option Pointer :=
  match splitSlash s.toList with
  | [] :: segments => some (segments.map fun segment => String.ofList (unescaped segment))
  | _ => none

variable {first second into c : Char} {cs ds : List Char}

/-- Escaping is two replacements. The tildes go first, so that those of the slashes stay. -/
theorem escape_eq_replaceChar (segment : String) :
    escape segment =
      replaceChar '/' ['~', '1'] (replaceChar '~' ['~', '0'] segment.toList) := by
  unfold replaceChar
  rw [List.flatMap_assoc, escape]
  congr 1
  funext c
  by_cases htilde : c = '~'
  · subst c
    rfl
  · by_cases hslash : c = '/'
    · subst c
      rfl
    · simp [escapeChar_eq_singleton htilde hslash, htilde, hslash]

theorem replacePair_pair (first second into : Char) (cs : List Char) :
    replacePair first second into (first :: second :: cs) =
      into :: replacePair first second into cs := by
  simp [replacePair]

theorem replacePair_cons_of_ne (hc : c ≠ first) (cs : List Char) :
    replacePair first second into (c :: cs) = c :: replacePair first second into cs := by
  cases cs with
  | nil => rfl
  | cons d rest => simp [replacePair, hc]

/-- A character that could begin a pair stays if the second one does not follow. -/
theorem replacePair_cons_cons_of_ne {d : Char} (hd : d ≠ second) (cs : List Char) :
    replacePair first second into (c :: d :: cs) =
      c :: replacePair first second into (d :: cs) := by
  simp [replacePair, hd]

/-- Where every tilde is part of an escape, the two replacements one after the other do the same as
reading from the left. -/
theorem unescaped_of_unescape? (h : unescape? cs = some ds) : unescaped cs = ds := by
  fun_induction unescape? cs generalizing ds with
  | case1 =>
    cases h
    rfl
  | case2 rest ih =>
    obtain ⟨es, hrest, rfl⟩ := Option.map_eq_some_iff.mp h
    rw [← ih hrest]
    have hslashes : replacePair '~' '1' '/' ('~' :: '0' :: rest) =
        '~' :: '0' :: replacePair '~' '1' '/' rest := by
      rw [replacePair_cons_cons_of_ne (by decide), replacePair_cons_of_ne (by decide)]
    rw [unescaped, hslashes, replacePair_pair, unescaped]
  | case3 rest ih =>
    obtain ⟨es, hrest, rfl⟩ := Option.map_eq_some_iff.mp h
    rw [← ih hrest, unescaped, replacePair_pair, replacePair_cons_of_ne (by decide), unescaped]
  | case4 => cases h
  | case5 c rest _ _ hc ih =>
    obtain ⟨es, hrest, rfl⟩ := Option.map_eq_some_iff.mp h
    rw [← ih hrest, unescaped, replacePair_cons_of_ne hc, replacePair_cons_of_ne hc, unescaped]

theorem unescaped_escape (segment : String) : unescaped (escape segment) = segment.toList :=
  unescaped_of_unescape? (unescape?_escape segment)

theorem segments?_render (p : Pointer) : segments? (p.renderFrom "") = some p := by
  have hsplit : splitSlash (p.renderFrom "").toList = [] :: p.map escape :=
    splitSlash_renderFrom "" p
  have hsegment : (fun cs => String.ofList (unescaped cs)) ∘ escape = id := by
    funext segment
    simp [unescaped_escape]
  rw [segments?, hsplit]
  simp only [List.map_map]
  rw [hsegment, List.map_id]

/-- Pointer texts are unambiguous. Each segment is escaped by two replacements, and undoing them
between the slashes gives the segments back, so that different pointers have different texts. One
text goes on behind another at a slash exactly if the pointer does. -/
theorem render_unambiguous :
    (∀ base segment, join base segment = base ++ "/" ++
      String.ofList (replaceChar '/' ['~', '1'] (replaceChar '~' ['~', '0'] segment.toList))) ∧
    (∀ p : Pointer, segments? (p.renderFrom "") = some p) ∧
    Function.Injective (renderFrom "") ∧
    ∀ p q : Pointer, LiesAt (p.renderFrom "") (q.renderFrom "") ↔ p <+: q := by
  refine ⟨?_, segments?_render, ?_, fun p q => liesAt_render_iff⟩
  · intro base segment
    apply String.toList_inj.mp
    simp [join, escape_eq_replaceChar]
  · intro p q h
    have hsegments : some p = some q := by
      rw [← segments?_render p, ← segments?_render q, h]
    exact Option.some.inj hsegments

end Replacements

end Pointer
end DeviceTwin
