import DeviceTwin.Json.Reader
import DeviceTwin.Proofs.Json.DistinctKeys

/-!
Values that are read from text have distinct keys. Scalars have none, and an object is closed with
its members set one after the other, each under a key of its own.
-/
namespace DeviceTwin

namespace Entries

variable {κ α : Type} [DecidableEq κ] {key : κ} {value : α} {entries : List (κ × α)} {entry : κ × α}

theorem mem_put (h : entry ∈ put key value entries) : entry = (key, value) ∨ entry ∈ entries := by
  induction entries with
  | nil => exact .inl (List.mem_singleton.mp h)
  | cons first rest ih =>
    rw [put] at h
    split at h
    · rcases List.mem_cons.mp h with rfl | h
      · next heq => exact .inl (by rw [heq])
      · exact .inr (List.mem_cons_of_mem _ h)
    · rcases List.mem_cons.mp h with rfl | h
      · exact .inr List.mem_cons_self
      · exact (ih h).imp_right (List.mem_cons_of_mem _)

theorem nodup_put (h : (entries.map (·.1)).Nodup) : ((put key value entries).map (·.1)).Nodup := by
  induction entries with
  | nil => exact List.nodup_cons.mpr ⟨List.not_mem_nil, List.nodup_nil⟩
  | cons first rest ih =>
    obtain ⟨hfirst, hrest⟩ := List.nodup_cons.mp h
    rw [put]
    split
    · exact h
    · next hne =>
      refine List.nodup_cons.mpr ⟨fun hm => ?_, ih hrest⟩
      obtain ⟨other, hother, heq⟩ := List.mem_map.mp hm
      rcases mem_put hother with rfl | hother
      · exact hne heq.symm
      · exact hfirst (List.mem_map.mpr ⟨other, hother, heq⟩)

/-- Distinct entries are entries that were given, with keys of their own. -/
theorem distinct_spec (entries : List (κ × α)) :
    ((distinct entries).map (·.1)).Nodup ∧ ∀ entry ∈ distinct entries, entry ∈ entries := by
  have hfrom : ∀ (rest done : List (κ × α)), (done.map (·.1)).Nodup →
      (∀ entry ∈ done, entry ∈ entries) → (∀ entry ∈ rest, entry ∈ entries) →
      ((rest.foldl (fun done entry => put entry.1 entry.2 done) done).map (·.1)).Nodup ∧
        ∀ entry ∈ rest.foldl (fun done entry => put entry.1 entry.2 done) done,
          entry ∈ entries := by
    intro rest
    induction rest with
    | nil => exact fun _ hkeys hdone _ => ⟨hkeys, hdone⟩
    | cons first rest ih =>
      intro done hkeys hdone hrest
      refine ih _ (nodup_put hkeys) (fun entry hm => ?_) fun entry hm =>
        hrest entry (List.mem_cons_of_mem _ hm)
      rcases mem_put hm with rfl | hm
      · exact hrest _ List.mem_cons_self
      · exact hdone entry hm
  exact hfrom entries [] List.nodup_nil nofun fun _ => id

end Entries

namespace Json

section Tokens

/-- A token that is a value has no keys. -/
def Token.IsPlain : Token → Prop
  | .scalar value => value.hasDistinctKeys
  | _ => True

theorem isPlain_word {letters : List Char} {value : Json} (h : word? letters = some value) :
    value.hasDistinctKeys := by
  unfold word? at h
  split at h <;> cases h <;> rfl

theorem isPlain_finish {mode : Mode} {tokens : List Token} (h : mode.finish = some tokens) :
    ∀ token ∈ tokens, token.IsPlain := by
  cases mode with
  | between =>
    cases h
    exact nofun
  | word letters =>
    obtain ⟨value, hvalue, rfl⟩ := Option.map_eq_some_iff.mp h
    intro token ht
    rw [List.mem_singleton.mp ht]
    exact isPlain_word hvalue
  | numeral chars =>
    obtain ⟨n, _, rfl⟩ := Option.map_eq_some_iff.mp h
    intro token ht
    rw [List.mem_singleton.mp ht]
    rfl
  | string chars escape => cases h

theorem isPlain_stepString {chars : List Char} {escape : Escape} {c : Char} {mode : Mode}
    {tokens : List Token} (h : stepString chars escape c = some (mode, tokens)) :
    ∀ token ∈ tokens, token.IsPlain := by
  cases escape with
  | plain =>
    simp only [stepString] at h
    split at h
    · cases h
      intro token ht
      rw [List.mem_singleton.mp ht]
      trivial
    · split at h
      · cases h
        exact nofun
      · obtain ⟨_, heq⟩ := Option.ite_none_left_eq_some.mp h
        cases heq
        exact nofun
  | backslash =>
    simp only [stepString] at h
    split at h
    · cases h
      exact nofun
    · obtain ⟨c, _, heq⟩ := Option.map_eq_some_iff.mp h
      cases heq
      exact nofun
  | unit lead digits =>
    obtain ⟨digit, _, h⟩ := Option.bind_eq_some_iff.mp h
    dsimp only at h
    split at h
    · cases h
      exact nofun
    · obtain ⟨next, _, heq⟩ := Option.map_eq_some_iff.mp h
      cases heq
      exact nofun
  | afterLead lead =>
    obtain ⟨_, heq⟩ := Option.ite_none_right_eq_some.mp h
    cases heq
    exact nofun
  | afterLeadBackslash lead =>
    obtain ⟨_, heq⟩ := Option.ite_none_right_eq_some.mp h
    cases heq
    exact nofun

theorem isPlain_punctuation {c : Char} {token : Token} (h : punctuation? c = some token) :
    token.IsPlain := by
  unfold punctuation? at h
  split at h <;> cases h <;> trivial

theorem isPlain_stepBetween {c : Char} {mode : Mode} {tokens : List Token}
    (h : stepBetween c = some (mode, tokens)) : ∀ token ∈ tokens, token.IsPlain := by
  unfold stepBetween at h
  repeat' split at h
  case isFalse =>
    obtain ⟨token, htoken, heq⟩ := Option.map_eq_some_iff.mp h
    cases heq
    intro token' ht
    rw [List.mem_singleton.mp ht]
    exact isPlain_punctuation htoken
  all_goals
    cases h
    exact nofun

theorem isPlain_endToken {mode mode' : Mode} {c : Char} {tokens : List Token}
    (h : Mode.step.endToken mode c = some (mode', tokens)) : ∀ token ∈ tokens, token.IsPlain := by
  obtain ⟨ended, hended, h⟩ := Option.bind_eq_some_iff.mp h
  obtain ⟨⟨next, later⟩, hlater, h⟩ := Option.bind_eq_some_iff.mp h
  cases h
  exact List.forall_mem_append.mpr ⟨isPlain_finish hended, isPlain_stepBetween hlater⟩

/-- The tokens that a character completes. -/
theorem isPlain_step {mode mode' : Mode} {c : Char} {tokens : List Token}
    (h : mode.step c = some (mode', tokens)) : ∀ token ∈ tokens, token.IsPlain := by
  cases mode with
  | between => exact isPlain_stepBetween h
  | string chars escape => exact isPlain_stepString h
  | word letters =>
    simp only [Mode.step] at h
    split at h
    · cases h
      exact nofun
    · exact isPlain_endToken h
  | numeral chars =>
    simp only [Mode.step] at h
    split at h
    · cases h
      exact nofun
    · exact isPlain_endToken h

end Tokens

section Readings

/-- All values that an open container holds have distinct keys. -/
def Frame.HasDistinctKeys : Frame → Prop
  | .array items => ∀ item ∈ items, item.hasDistinctKeys
  | .object members _ => ∀ member ∈ members, member.2.hasDistinctKeys

/-- All values that have been read have distinct keys. -/
def Reading.HasDistinctKeys : Reading → Prop
  | .dueValue outer | .firstItem outer | .firstName outer => ∀ frame ∈ outer, frame.HasDistinctKeys
  | .afterItem items outer =>
    (∀ item ∈ items, item.hasDistinctKeys) ∧ ∀ frame ∈ outer, frame.HasDistinctKeys
  | .dueName members outer | .dueColon members _ outer | .afterMember members outer =>
    (∀ member ∈ members, member.2.hasDistinctKeys) ∧ ∀ frame ∈ outer, frame.HasDistinctKeys
  | .complete value => value.hasDistinctKeys

namespace Reading

variable {outer : List Frame} {value : Json} {limit : Nat} {token : Token} {reading next : Reading}

theorem hasDistinctKeys_give (hvalue : value.hasDistinctKeys)
    (houter : ∀ frame ∈ outer, frame.HasDistinctKeys) : (give value outer).HasDistinctKeys := by
  cases outer with
  | nil => exact hvalue
  | cons frame outer =>
    obtain ⟨hframe, hrest⟩ := List.forall_mem_cons.mp houter
    cases frame with
    | array items => exact ⟨List.forall_mem_cons.mpr ⟨hvalue, hframe⟩, hrest⟩
    | object members name => exact ⟨List.forall_mem_cons.mpr ⟨hvalue, hframe⟩, hrest⟩

theorem hasDistinctKeys_start (htoken : token.IsPlain)
    (houter : ∀ frame ∈ outer, frame.HasDistinctKeys) (h : start limit outer token = some next) :
    next.HasDistinctKeys := by
  cases token with
  | scalar value =>
    cases h
    exact hasDistinctKeys_give htoken houter
  | text s =>
    cases h
    exact hasDistinctKeys_give rfl houter
  | openArray =>
    obtain ⟨_, heq⟩ := Option.ite_none_right_eq_some.mp h
    cases heq
    exact houter
  | openObject =>
    obtain ⟨_, heq⟩ := Option.ite_none_right_eq_some.mp h
    cases heq
    exact houter
  | _ => cases h

/-- Members that are closed into an object have keys of their own there. -/
theorem hasDistinctKeys_close {members : List (String × Json)}
    (h : ∀ member ∈ members, member.2.hasDistinctKeys) :
    (Json.obj (Entries.distinct members.reverse)).hasDistinctKeys := by
  obtain ⟨hkeys, hmem⟩ := Entries.distinct_spec members.reverse
  exact Json.hasDistinctKeys_obj.mpr
    ⟨hkeys, fun member hm => h member (List.mem_reverse.mp (hmem member hm))⟩

theorem hasDistinctKeys_step (htoken : token.IsPlain) (hreading : reading.HasDistinctKeys)
    (h : step limit reading token = some next) : next.HasDistinctKeys := by
  cases reading with
  | dueValue outer => exact hasDistinctKeys_start htoken hreading h
  | firstItem outer =>
    simp only [step] at h
    split at h
    · cases h
      exact hasDistinctKeys_give rfl hreading
    · have houter : ∀ frame ∈ Frame.array [] :: outer, frame.HasDistinctKeys :=
        List.forall_mem_cons.mpr ⟨nofun, hreading⟩
      exact hasDistinctKeys_start htoken houter h
  | afterItem items outer =>
    obtain ⟨hitems, houter⟩ := hreading
    cases token with
    | comma =>
      cases h
      exact List.forall_mem_cons.mpr ⟨hitems, houter⟩
    | closeArray =>
      cases h
      refine hasDistinctKeys_give ?_ houter
      exact Json.hasDistinctKeys_arr.mpr fun item hm => hitems item (List.mem_reverse.mp hm)
    | _ => cases h
  | firstName outer =>
    cases token with
    | closeObject =>
      cases h
      exact hasDistinctKeys_give rfl hreading
    | text s =>
      cases h
      exact ⟨nofun, hreading⟩
    | _ => cases h
  | dueName members outer =>
    cases token with
    | text s =>
      cases h
      exact hreading
    | _ => cases h
  | dueColon members name outer =>
    obtain ⟨hmembers, houter⟩ := hreading
    cases token with
    | colon =>
      cases h
      exact List.forall_mem_cons.mpr ⟨hmembers, houter⟩
    | _ => cases h
  | afterMember members outer =>
    obtain ⟨hmembers, houter⟩ := hreading
    cases token with
    | comma =>
      cases h
      exact ⟨hmembers, houter⟩
    | closeObject =>
      cases h
      exact hasDistinctKeys_give (hasDistinctKeys_close hmembers) houter
    | _ => cases h
  | complete value => cases h

end Reading

/-- What every step keeps holds after all of them. -/
theorem foldlM_holds {α β : Type} {p : β → Prop} {f : β → α → Option β} {xs : List α} {b b' : β}
    (hstep : ∀ b x b', x ∈ xs → p b → f b x = some b' → p b') (hb : p b)
    (h : xs.foldlM f b = some b') : p b' := by
  induction xs generalizing b with
  | nil =>
    cases h
    exact hb
  | cons x xs ih =>
    obtain ⟨c, hc, hrest⟩ := Option.bind_eq_some_iff.mp h
    exact ih (fun b y b' hy => hstep b y b' (List.mem_cons_of_mem _ hy))
      (hstep b x c List.mem_cons_self hb hc) hrest

theorem hasDistinctKeys_tokens {limit : Nat} {tokens : List Token} {reading next : Reading}
    (htokens : ∀ token ∈ tokens, token.IsPlain) (hreading : reading.HasDistinctKeys)
    (h : tokens.foldlM (Reading.step limit) reading = some next) : next.HasDistinctKeys :=
  foldlM_holds (p := Reading.HasDistinctKeys)
    (fun _ token _ ht hb => Reading.hasDistinctKeys_step (htokens token ht) hb) hreading h

/-- A document that is read has distinct keys everywhere. -/
theorem hasDistinctKeys_of_read? {s : String} {value : Json} (h : read? s = some value) :
    value.hasDistinctKeys := by
  obtain ⟨p, hp, hfinish⟩ := Option.bind_eq_some_iff.mp h
  have hbegin : Progress.begin.reading.HasDistinctKeys := fun frame hm =>
    absurd hm List.not_mem_nil
  have hreading : p.reading.HasDistinctKeys := by
    refine foldlM_holds (p := fun p : Progress => p.reading.HasDistinctKeys) ?_ hbegin hp
    intro p c p' _ hp hstep
    obtain ⟨⟨mode, tokens⟩, htokens, hstep⟩ := Option.bind_eq_some_iff.mp hstep
    obtain ⟨reading, hreading, hstep⟩ := Option.bind_eq_some_iff.mp hstep
    cases hstep
    exact hasDistinctKeys_tokens (isPlain_step htokens) hp hreading
  obtain ⟨tokens, htokens, hfinish⟩ := Option.bind_eq_some_iff.mp hfinish
  obtain ⟨reading, hlast, hfinish⟩ := Option.bind_eq_some_iff.mp hfinish
  have hcomplete := hasDistinctKeys_tokens (isPlain_finish htokens) hreading hlast
  split at hfinish
  · cases hfinish
    exact hcomplete
  · cases hfinish

end Readings

end Json
end DeviceTwin
