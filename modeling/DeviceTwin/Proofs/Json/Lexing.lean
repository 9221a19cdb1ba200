import DeviceTwin.Proofs.Json.Tokens

/-!
Text that is written falls into the tokens of the value, whatever follows. Words and numbers end
where the text ends, or at a character that cannot belong to them.
-/
namespace DeviceTwin.Json

/-- The tokens of a text, from a mode on. -/
def tokenize? : Mode → List Char → Option (List Token)
  | mode, [] => mode.finish
  | mode, c :: rest =>
    (mode.step c).bind fun (mode, tokens) => (tokenize? mode rest).map (tokens ++ ·)

/-- The value, if all of it has been read. -/
def Reading.value? : Reading → Option Json
  | .complete value => some value
  | _ => none

variable {limit : Nat} {mode next : Mode} {reading : Reading} {c : Char}
  {chars rest seen : List Char} {ts later : List Token} {token : Token} {value : Json}

/-- Reading character by character is reading all tokens one after the other. -/
theorem foldlM_step_bind_finish :
    (chars.foldlM (Progress.step limit) ⟨mode, reading⟩).bind (Progress.finish limit) =
      (tokenize? mode chars).bind fun ts =>
        (ts.foldlM (Reading.step limit) reading).bind Reading.value? := by
  induction chars generalizing mode reading with
  | nil => rfl
  | cons c rest ih =>
    rw [List.foldlM_cons, tokenize?]
    cases hstep : mode.step c with
    | none => simp [Progress.step, hstep]
    | some found =>
      obtain ⟨next, ts⟩ := found
      have hlater : ∀ later, (ts ++ later).foldlM (Reading.step limit) reading =
          (ts.foldlM (Reading.step limit) reading).bind (later.foldlM (Reading.step limit) ·) :=
        fun later => List.foldlM_append
      cases hread : ts.foldlM (Reading.step limit) reading with
      | none =>
        have hstop : Progress.step limit ⟨mode, reading⟩ c = none := by
          simp [Progress.step, hstep, hread]
        simp only [hstop, Option.bind_some]
        cases tokenize? next rest <;> simp [hlater, hread]
      | some reading' =>
        have hrest := @ih next reading'
        cases htokens : tokenize? next rest <;> simp_all [Progress.step]

theorem readWithin?_eq (limit : Nat) (s : String) :
    readWithin? limit s = (tokenize? .between s.toList).bind fun ts =>
      (ts.foldlM (Reading.step limit) (.dueValue [])).bind Reading.value? :=
  foldlM_step_bind_finish

/-- No word and no number goes on here. -/
def Ends : List Char → Prop
  | [] => True
  | c :: _ => c.isLower = false ∧ isNumeralChar c = false

/-- Text that ends the last word or number before it. -/
def Stops (chars : List Char) : Prop := ∀ rest, Ends rest → Ends (chars ++ rest)

/-- The text falls into these tokens wherever it ends its last word or number. -/
def Lexes (chars : List Char) (ts : List Token) : Prop :=
  ∀ rest, Ends rest → tokenize? .between (chars ++ rest) = (tokenize? .between rest).map (ts ++ ·)

theorem tokenize?_of_step (h : mode.step c = some (next, ts)) :
    tokenize? mode (c :: rest) = (tokenize? next rest).map (ts ++ ·) := by
  rw [tokenize?, h, Option.bind_some]

theorem tokenize?_of_quiet_step (h : mode.step c = some (next, [])) :
    tokenize? mode (c :: rest) = tokenize? next rest := by
  rw [tokenize?_of_step h]
  exact Option.map_id'

/-- Characters that a token takes one after the other. -/
theorem tokenize?_collect (collect : List Char → Mode)
    (h : ∀ c ∈ chars, ∀ seen, (collect seen).step c = some (collect (c :: seen), [])) :
    tokenize? (collect seen) (chars ++ rest) =
      tokenize? (collect (chars.reverse ++ seen)) rest := by
  induction chars generalizing seen with
  | nil => rfl
  | cons c chars ih =>
    rw [List.cons_append, tokenize?_of_quiet_step (h c List.mem_cons_self seen),
      ih fun c hc => h c (List.mem_cons_of_mem _ hc), List.reverse_cons, List.append_assoc]
    rfl

/-- A token that has ended stands before those of the rest. -/
theorem tokenize?_ended (hends : Ends rest) (hfinish : mode.finish = some ts)
    (hstep : ∀ c, c.isLower = false → isNumeralChar c = false →
      mode.step c = Mode.step.endToken mode c) :
    tokenize? mode rest = (tokenize? .between rest).map (ts ++ ·) := by
  cases rest with
  | nil =>
    rw [tokenize?, tokenize?, hfinish, Mode.finish, Option.map_some, List.append_nil]
  | cons c rest =>
    rw [tokenize?, tokenize?, hstep c hends.1 hends.2, Mode.step.endToken, hfinish, Mode.step]
    cases stepBetween c with
    | none => rfl
    | some found =>
      obtain ⟨next, later⟩ := found
      simp [Function.comp_def]

theorem step_word {letters : List Char} (h : c.isLower = false) :
    (Mode.word letters).step c = Mode.step.endToken (.word letters) c := by
  rw [Mode.step, if_neg (by simp [h])]

theorem step_numeral (h : isNumeralChar c = false) :
    (Mode.numeral chars).step c = Mode.step.endToken (.numeral chars) c := by
  rw [Mode.step, if_neg (by simp [h])]

namespace Lexes

theorem nil : Lexes [] [] := fun _ _ => Option.map_id'.symm

theorem append {others : List Char} (hchars : Lexes chars ts) (hothers : Lexes others later)
    (hstops : Stops others) :
    Lexes (chars ++ others) (ts ++ later) := by
  intro rest hrest
  rw [List.append_assoc, hchars _ (hstops rest hrest), hothers rest hrest, Option.map_map]
  simp only [Function.comp_def, List.append_assoc]

theorem blank (hc : isBlank c = true) (h : Lexes chars ts) : Lexes (c :: chars) ts := by
  intro rest hrest
  have hstep : Mode.between.step c = some (.between, []) := if_pos hc
  rw [List.cons_append, tokenize?_of_quiet_step hstep, h rest hrest]

theorem blanks {others : List Char} (hchars : ∀ c ∈ chars, isBlank c = true)
    (h : Lexes others ts) : Lexes (chars ++ others) ts := by
  induction chars with
  | nil => exact h
  | cons c chars ih =>
    exact .blank (hchars c List.mem_cons_self) (ih fun c hc => hchars c (List.mem_cons_of_mem _ hc))

theorem punctuation (hstep : Mode.between.step c = some (.between, [token])) (h : Lexes chars ts) :
    Lexes (c :: chars) (token :: ts) := by
  intro rest hrest
  rw [List.cons_append, tokenize?_of_step hstep, h rest hrest, Option.map_map]
  rfl

/-- A word of lower case letters. -/
theorem word (hfirst : Mode.between.step c = some (.word [c], []))
    (hlower : chars.all Char.isLower = true) (hword : word? (c :: chars) = some value) :
    Lexes (c :: chars) [.scalar value] := by
  intro rest hrest
  have hcollect : tokenize? (.word [c]) (chars ++ rest) =
      tokenize? (.word (chars.reverse ++ [c])) rest :=
    tokenize?_collect .word fun c hc letters => if_pos (List.all_eq_true.mp hlower c hc)
  have hfinish : (Mode.word (chars.reverse ++ [c])).finish = some [.scalar value] := by
    simp [Mode.finish, hword]
  rw [List.cons_append, tokenize?_of_quiet_step hfirst, hcollect,
    tokenize?_ended hrest hfinish fun _ hl _ => step_word hl]

/-- A number. -/
theorem numeral {n : Number} (hfirst : Mode.between.step c = some (.numeral [c], []))
    (hchars : ∀ c ∈ chars, isNumeralChar c = true) (hread : Numeral.read? (c :: chars) = some n) :
    Lexes (c :: chars) [.scalar (.num n)] := by
  intro rest hrest
  have hcollect : tokenize? (.numeral [c]) (chars ++ rest) =
      tokenize? (.numeral (chars.reverse ++ [c])) rest :=
    tokenize?_collect .numeral fun c hc seen => if_pos (hchars c hc)
  have hfinish : (Mode.numeral (chars.reverse ++ [c])).finish = some [.scalar (.num n)] := by
    simp [Mode.finish, hread]
  rw [List.cons_append, tokenize?_of_quiet_step hfirst, hcollect,
    tokenize?_ended hrest hfinish fun _ _ hn => step_numeral hn]

end Lexes

section Strings

theorem digit?_hexDigit {n : Nat} (h : n < 16) : digit? 16 (hexDigit n) = some n := by
  have hdigits : ∀ n < 16, digit? 16 (hexDigit n) = some n := by decide
  exact hdigits n h

/-- A digit of an escaped code unit that is not its last. -/
theorem step_unit {digits : List Nat} {d : Nat} (hd : digit? 16 c = some d)
    (hlength : digits.length < 3) :
    (Mode.string seen (.unit none digits)).step c =
      some (.string seen (.unit none (digits ++ [d])), []) := by
  simp [Mode.step, stepString, hd]
  omega

/-- The last digit of an escaped control character. -/
theorem step_unit_last {high low : Nat} (seen : List Char) (hhigh : high < 2) (hlow : low < 16) :
    (Mode.string seen (.unit none [0, 0, high])).step (hexDigit low) =
      some (.string (Char.ofNat (high * 16 + low) :: seen) .plain, []) := by
  have hdigits : ofDigits 16 [0, 0, high, low] = high * 16 + low := by simp [ofDigits]
  have hlead : isLead (high * 16 + low) = false := by simp [isLead]; omega
  have htrail : isTrail (high * 16 + low) = false := by simp [isTrail]; omega
  simp [Mode.step, stepString, digit?_hexDigit hlow, hdigits, takeUnit, hlead, htrail]

theorem tokenize?_simpleEscape {e : Char} (he : simpleEscape? e = some c) (hu : e ≠ 'u') :
    tokenize? (.string seen .plain) ('\\' :: e :: rest) =
      tokenize? (.string (c :: seen) .plain) rest := by
  have hbackslash : (Mode.string seen .plain).step '\\' = some (.string seen .backslash, []) := rfl
  have hescape : (Mode.string seen .backslash).step e = some (.string (c :: seen) .plain, []) := by
    simp [Mode.step, stepString, he, hu]
  rw [tokenize?_of_quiet_step hbackslash, tokenize?_of_quiet_step hescape]

theorem tokenize?_controlEscape (hcontrol : c.toNat < 0x20) :
    tokenize? (.string seen .plain) ('\\' :: 'u' :: '0' :: '0' :: hexDigit (c.toNat / 16) ::
      hexDigit (c.toNat % 16) :: rest) = tokenize? (.string (c :: seen) .plain) rest := by
  have hbackslash : (Mode.string seen .plain).step '\\' = some (.string seen .backslash, []) := rfl
  have hunit : (Mode.string seen .backslash).step 'u' =
      some (.string seen (.unit none []), []) := rfl
  have hzero : digit? 16 '0' = some 0 := by decide
  have hfirst : (Mode.string seen (.unit none [])).step '0' =
      some (.string seen (.unit none [0]), []) := step_unit hzero (by decide)
  have hsecond : (Mode.string seen (.unit none [0])).step '0' =
      some (.string seen (.unit none [0, 0]), []) := step_unit hzero (by decide)
  have hthird : (Mode.string seen (.unit none [0, 0])).step (hexDigit (c.toNat / 16)) =
      some (.string seen (.unit none [0, 0, c.toNat / 16]), []) :=
    step_unit (digit?_hexDigit (by omega)) (by decide)
  have hlast := step_unit_last seen (show c.toNat / 16 < 2 by omega)
    (show c.toNat % 16 < 16 by omega)
  rw [tokenize?_of_quiet_step hbackslash, tokenize?_of_quiet_step hunit,
    tokenize?_of_quiet_step hfirst, tokenize?_of_quiet_step hsecond,
    tokenize?_of_quiet_step hthird, tokenize?_of_quiet_step hlast,
    show c.toNat / 16 * 16 + c.toNat % 16 = c.toNat by omega, Char.ofNat_toNat]

/-- What is written of a character is read as the character. -/
theorem tokenize?_escapeChar (c : Char) (seen rest : List Char) :
    tokenize? (.string seen .plain) (escapeChar c ++ rest) =
      tokenize? (.string (c :: seen) .plain) rest := by
  unfold escapeChar
  split
  · exact tokenize?_simpleEscape rfl (by decide)
  · exact tokenize?_simpleEscape rfl (by decide)
  · exact tokenize?_simpleEscape rfl (by decide)
  · exact tokenize?_simpleEscape rfl (by decide)
  · exact tokenize?_simpleEscape rfl (by decide)
  · exact tokenize?_simpleEscape rfl (by decide)
  · exact tokenize?_simpleEscape rfl (by decide)
  · next hquote hbackslash _ _ _ _ _ =>
    split
    · next hcontrol => exact tokenize?_controlEscape hcontrol
    · next hplain =>
      have hstep : (Mode.string seen .plain).step c = some (.string (c :: seen) .plain, []) := by
        simp only [Mode.step, stepString, if_neg hquote, if_neg hbackslash, if_neg hplain]
      exact tokenize?_of_quiet_step hstep

theorem tokenize?_escapeChars (chars seen rest : List Char) :
    tokenize? (.string seen .plain) (chars.flatMap escapeChar ++ rest) =
      tokenize? (.string (chars.reverse ++ seen) .plain) rest := by
  induction chars generalizing seen with
  | nil => rfl
  | cons c chars ih =>
    rw [List.flatMap_cons, List.append_assoc, tokenize?_escapeChar, ih, List.reverse_cons,
      List.append_assoc]
    rfl

/-- A string, with whatever is in it. -/
theorem Lexes.text (s : String) (h : Lexes chars ts) :
    Lexes (writeString s ++ chars) (.text s :: ts) := by
  intro rest hrest
  have hopen : Mode.between.step '"' = some (.string [] .plain, []) := rfl
  have hclose : (Mode.string (s.toList.reverse ++ []) .plain).step '"' =
      some (.between, [.text s]) := by
    simp [Mode.step, stepString]
  simp only [writeString, List.append_assoc, List.cons_append, List.nil_append]
  rw [tokenize?_of_quiet_step hopen, tokenize?_escapeChars, tokenize?_of_step hclose, h rest hrest,
    Option.map_map]
  rfl

end Strings

section Write

variable {n : Nat} {layout : Layout} {level : Nat} {items : List Json}
  {members : List (String × Json)}

theorem isBlank_of_mem_newline (layout : Layout) (level : Nat) :
    ∀ c ∈ layout.newline level, isBlank c = true := by
  cases layout with
  | compact => exact nofun
  | indented width =>
    intro c hc
    rcases List.mem_cons.mp hc with rfl | hc
    · rfl
    · rw [List.eq_of_mem_replicate hc]
      rfl

theorem Lexes.newline (h : Lexes chars ts) : Lexes (layout.newline level ++ chars) ts :=
  .blanks (isBlank_of_mem_newline layout level) h

theorem Lexes.colon (h : Lexes chars ts) : Lexes (layout.colon ++ chars) (.colon :: ts) := by
  cases layout with
  | compact => exact .punctuation rfl h
  | indented width => exact .punctuation rfl (.blank rfl h)

/-- The end of a container stands on a line of its own. -/
theorem Lexes.close (hstep : Mode.between.step c = some (.between, [token])) :
    Lexes (layout.newline level ++ [c]) [token] :=
  (Lexes.punctuation hstep .nil).newline

theorem step_numeral_first (h : c.isDigit = true ∨ c = '-') :
    Mode.between.step c = some (.numeral [c], []) := by
  rcases h with h | rfl
  · have hne : ∀ d : Char, d.isDigit = false → c ≠ d := by
      rintro d hd rfl
      cases h.symm.trans hd
    have hblank : isBlank c = false := by
      simp [isBlank, hne ' ' rfl, hne '\t' rfl, hne '\n' rfl, hne '\r' rfl]
    simp [Mode.step, stepBetween, hblank, hne '"' rfl, h]
  · rfl

theorem isNumeralChar_of_isDigit (h : c.isDigit = true) : isNumeralChar c = true := by
  simp [isNumeralChar, h]

/-- An integer that fits in 64 bits is one token. -/
theorem lexes_int {i : Int} (h : Numeral.Fits i) :
    Lexes (writeNumber (.int i)) [.scalar (.int i)] := by
  have hread := Numeral.read?_writeNumber h
  have hdigits : ∀ c ∈ Nat.toDigits 10 i.natAbs, c.isDigit = true := fun c hc =>
    Nat.isDigit_of_mem_toDigits (by decide) (by decide) hc
  rw [writeNumber] at hread ⊢
  by_cases hneg : i < 0
  · rw [if_pos hneg, List.singleton_append] at hread ⊢
    exact .numeral (step_numeral_first (.inr rfl))
      (fun c hc => isNumeralChar_of_isDigit (hdigits c hc)) hread
  · rw [if_neg hneg, List.nil_append] at hread ⊢
    cases hwrite : Nat.toDigits 10 i.natAbs with
    | nil => exact absurd hwrite Nat.toDigits_ne_nil
    | cons c rest =>
      rw [hwrite] at hread hdigits
      exact .numeral (step_numeral_first (.inl (hdigits c List.mem_cons_self)))
        (fun d hd => isNumeralChar_of_isDigit (hdigits d (List.mem_cons_of_mem _ hd))) hread

theorem stops_cons (h : Ends [c]) : Stops (c :: chars) := fun _ _ => h

theorem Stops.newline (h : Stops chars) : Stops (layout.newline level ++ chars) := by
  cases layout with
  | compact => exact h
  | indented width => exact stops_cons ⟨rfl, rfl⟩

theorem Stops.writeItems (h : Stops chars) :
    Stops (Json.writeItems layout level items ++ chars) := by
  cases items with
  | nil => exact h
  | cons item rest => exact stops_cons ⟨rfl, rfl⟩

theorem Stops.writeMembers (h : Stops chars) :
    Stops (Json.writeMembers layout level members ++ chars) := by
  cases members with
  | nil => exact h
  | cons member rest => exact stops_cons ⟨rfl, rfl⟩

theorem Lexes.writeItems (hitems : ∀ item ∈ items, Lexes (write layout level item) (tokens item))
    (hstops : Stops chars) (h : Lexes chars ts) :
    Lexes (Json.writeItems layout level items ++ chars) (tokensOfItems items ++ ts) := by
  induction items with
  | nil => exact h
  | cons item rest ih =>
    have hrest := ih fun item hm => hitems item (List.mem_cons_of_mem _ hm)
    have hitem := (hitems item List.mem_cons_self).append hrest hstops.writeItems
    simp only [Json.writeItems, tokensOfItems, List.append_assoc, List.cons_append]
    exact .punctuation rfl hitem.newline

theorem Lexes.writeMembers
    (hmembers : ∀ member ∈ members, Lexes (write layout level member.2) (tokens member.2))
    (hstops : Stops chars) (h : Lexes chars ts) :
    Lexes (Json.writeMembers layout level members ++ chars) (tokensOfMembers members ++ ts) := by
  induction members with
  | nil => exact h
  | cons member rest ih =>
    obtain ⟨key, value⟩ := member
    have hrest := ih fun member hm => hmembers member (List.mem_cons_of_mem _ hm)
    have hvalue := (hmembers _ List.mem_cons_self).append hrest hstops.writeMembers
    simp only [Json.writeMembers, tokensOfMembers, List.append_assoc, List.cons_append]
    exact .punctuation rfl (Lexes.text key hvalue.colon).newline

/-- A value that is written falls into its tokens. -/
theorem lexes_write (h : Readable n value) (layout : Layout) (level : Nat) :
    Lexes (write layout level value) (tokens value) := by
  induction h generalizing level with
  | null => exact .word rfl rfl rfl
  | @bool _ b => cases b <;> exact .word rfl rfl rfl
  | @str _ s =>
    have htext := Lexes.text s .nil
    rwa [List.append_nil] at htext
  | int hfits => exact lexes_int hfits
  | @arr _ items _ ih =>
    cases items with
    | nil => exact .punctuation rfl (.punctuation rfl .nil)
    | cons item rest =>
      have hstops : Stops (layout.newline level ++ [']']) := (stops_cons ⟨rfl, rfl⟩).newline
      have hrest := Lexes.writeItems
        (fun item hm => ih item (List.mem_cons_of_mem _ hm) (level + 1)) hstops (.close rfl)
      have hitem := (ih item List.mem_cons_self (level + 1)).append hrest hstops.writeItems
      simp only [write, tokens, List.append_assoc, List.cons_append]
      exact .punctuation rfl hitem.newline
  | @obj _ members _ _ ih =>
    cases members with
    | nil => exact .punctuation rfl (.punctuation rfl .nil)
    | cons member rest =>
      obtain ⟨key, value⟩ := member
      have hstops : Stops (layout.newline level ++ ['\x7d']) := (stops_cons ⟨rfl, rfl⟩).newline
      have hrest := Lexes.writeMembers
        (fun member hm => ih member (List.mem_cons_of_mem _ hm) (level + 1)) hstops (.close rfl)
      have hvalue := (ih _ List.mem_cons_self (level + 1)).append hrest hstops.writeMembers
      simp only [write, tokens, List.append_assoc, List.cons_append]
      exact .punctuation rfl (Lexes.text key hvalue.colon).newline

/-- What is written of a value is read as the value, if nothing but blanks follows. -/
theorem read?_of_write (h : Readable nestingLimit value) {s : String}
    (hs : s.toList = write layout 0 value ++ rest) (hends : Ends rest)
    (hrest : tokenize? .between rest = some []) : read? s = some value := by
  have htokens : tokenize? .between s.toList = some (tokens value) := by
    rw [hs, lexes_write h layout 0 rest hends, hrest, Option.map_some, List.append_nil]
  have hread : (tokens value).foldlM (Reading.step nestingLimit) (.dueValue []) =
      some (.complete value) := by
    have hdelivers : Reading.Delivers nestingLimit nestingLimit value :=
      Reading.delivers_of_readable h
    have hvalue := hdelivers [] [] (Nat.le_refl _)
    rwa [List.append_nil] at hvalue
  rw [read?, readWithin?_eq, htokens, Option.bind_some, hread]
  rfl

/-- What is rendered of a value is read as the value, in every layout. -/
theorem read?_render (h : Readable nestingLimit value) (layout : Layout) :
    read? (value.render layout) = some value := by
  have htext : (value.render layout).toList = write layout 0 value ++ [] := by
    rw [render, String.toList_ofList, List.append_nil]
  exact read?_of_write h htext trivial rfl

/-- The same on a line of its own. -/
theorem read?_render_line (h : Readable nestingLimit value) (layout : Layout) :
    read? (value.render layout ++ "\n") = some value := by
  have htext : (value.render layout ++ "\n").toList = write layout 0 value ++ ['\n'] := by
    rw [String.toList_append, render, String.toList_ofList]
    rfl
  exact read?_of_write h htext ⟨rfl, rfl⟩ rfl

end Write

end DeviceTwin.Json
