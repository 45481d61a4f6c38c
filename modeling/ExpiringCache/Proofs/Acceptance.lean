import ExpiringCache.Proofs.Format

/-!
# Texts that are accepted

A text that begins like an object and is accepted is a document, so it is read as what the document
means. In particular nothing is accepted in which a known member occurs twice, however its name is
spelled, or has a value of another kind.
-/

namespace ExpiringCache

open Json

/-! ## Numbers that are read -/

namespace Json

variable {negative : Bool} {significand dropped : Nat} {start : Int} {cs rest : List Char}
  {n : Numeral}

theorem skipDigits_of_readExponent (h : readExponent negative significand start cs = .ok (n, rest)) :
    skipDigits (takeSign cs).2 = .ok rest := by
  simp only [readExponent] at h
  split at h
  · cases h
  · rename_i c ds hsign
    split at h
    · rename_i hc
      have hdigits : skipDigits (takeSign cs).2 = .ok ((takeSign cs).2.dropWhile Char.isDigit) := by
        rw [hsign, List.dropWhile_cons_of_pos hc, skipDigits, if_pos hc]
      split at h
      · split at h
        · cases h
          exact hdigits
        · cases h
      · rw [readReal_rest h]
        exact hdigits
    · cases h

theorem skipExponent_of_afterFraction
    (h : afterFraction negative significand start cs = .ok (n, rest)) :
    skipExponent cs = .ok rest := by
  cases cs with
  | nil =>
    rw [readReal_rest h]
    rfl
  | cons c cs =>
    simp only [afterFraction] at h
    rw [skipExponent]
    split at h
    · rename_i hm
      rw [if_pos hm]
      exact skipDigits_of_readExponent h
    · rename_i hm
      rw [if_neg hm, readReal_rest h]

theorem skip_of_readFraction (h : readFraction negative significand start cs = .ok (n, rest)) :
    ∃ rest', skipDigits cs = .ok rest' ∧ skipExponent rest' = .ok rest := by
  simp only [readFraction] at h
  split at h
  · cases h
  · rename_i hne
    refine ⟨cs.dropWhile Char.isDigit, ?_, skipExponent_of_afterFraction h⟩
    cases cs with
    | nil => exact absurd rfl hne
    | cons c cs =>
      by_cases hc : c.isDigit = true
      · rw [List.dropWhile_cons_of_pos hc, skipDigits, if_pos hc]
      · rw [List.takeWhile_cons_of_neg hc] at hne
        exact absurd rfl hne

theorem skipFraction_of_afterWhole (h : afterWhole negative significand dropped cs = .ok (n, rest)) :
    skipFraction cs = .ok rest := by
  have plain : ∀ cs : List Char, (if dropped = 0 then .ok (integer negative significand cs)
      else readReal negative significand dropped cs) = .ok (n, rest) → rest = cs := by
    intro cs h
    split at h
    · have hrest := integer_rest negative significand cs
      rw [Except.ok.inj h] at hrest
      exact hrest
    · exact readReal_rest h
  unfold afterWhole at h
  split at h
  · rw [plain [] h]
    rfl
  · rename_i c cs
    rw [skipFraction]
    split at h
    · rename_i hpoint
      obtain ⟨rest', hdigits, hexponent⟩ := skip_of_readFraction h
      rw [if_pos hpoint, hdigits]
      exact hexponent
    · rename_i hpoint
      rw [if_neg hpoint]
      rw [skipExponent]
      split at h
      · rename_i hm
        rw [if_pos hm]
        exact skipDigits_of_readExponent h
      · rename_i hm
        rw [if_neg hm, plain _ h]

/-- A number that is read could be left out. -/
theorem skipNumber_of_readNumber (h : readNumber negative cs = .ok (n, rest)) :
    skipNumber cs = .ok rest := by
  unfold readNumber at h
  split at h
  · cases h
  · rename_i c cs
    rw [skipNumber]
    split at h
    · rename_i hz
      rw [if_pos hz]
      split at h
      · cases h
      · rename_i hnext
        rw [if_neg hnext]
        exact skipFraction_of_afterWhole h
    · rename_i hz
      rw [if_neg hz]
      split at h
      · rename_i hc
        rw [List.dropWhile_cons_of_pos hc] at h
        rw [if_pos hc]
        exact skipFraction_of_afterWhole h
      · cases h

end Json

namespace Config

theorem readCount_sound {cs rest : List Char} {k : UInt64} (h : readCount cs = .ok (k, rest)) :
    ∃ (ws : Blanks) (v : List Char), Value v ∧ cs = ws.chars ++ (v ++ rest) := by
  cases hc : skipBlanks cs with
  | nil => simp [readCount, hc] at h
  | cons c cs' =>
    obtain ⟨ws, rfl⟩ := exists_blanks_cons hc
    rcases readCount_front hc h with ⟨-, hn⟩ | ⟨-, hn⟩
    · exact absurd hn (readNumber_unnatural _ k rest)
    · obtain ⟨n, hneg, heq⟩ := skipNumber_sound (skipNumber_of_readNumber hn) false
      refine ⟨ws, n.spelling, .number n, ?_⟩
      rw [heq, Number.spelling, hneg]
      rfl

theorem readFlag_sound {cs rest : List Char} {b : Bool} (h : readFlag cs = .ok (b, rest)) :
    ∃ (ws : Blanks) (v : List Char), Value v ∧ cs = ws.chars ++ (v ++ rest) := by
  have word : ∀ {word cs : List Char} {b' : Bool},
      (lift (literal word cs)).map (b', ·) = .ok (b, rest) → cs = word ++ rest := by
    intro word cs b' h
    obtain ⟨r, hr, heq⟩ := map_eq_ok_iff.mp h
    cases heq
    exact literal_eq_ok_iff.mp (lift_eq_ok_iff.mp hr)
  cases hc : skipBlanks cs with
  | nil => simp [readFlag, hc] at h
  | cons c cs' =>
    obtain ⟨ws, rfl⟩ := exists_blanks_cons hc
    simp only [readFlag, hc] at h
    split at h
    · rename_i ht
      exact ⟨ws, _, .flag true, by rw [ht, word h]; rfl⟩
    · split at h
      · rename_i hf
        exact ⟨ws, _, .flag false, by rw [hf, word h]; rfl⟩
      · cases h

theorem readColon_sound {cs rest : List Char} (h : readColon cs = .ok rest) :
    ∃ gap : Blanks, cs = gap.chars ++ ':' :: rest := by
  unfold readColon at h
  split at h
  · cases h
  · rename_i c rest' hc
    split at h
    · rename_i hcolon
      cases h
      rw [hcolon] at hc
      exact exists_blanks_cons hc
    · cases h

/-- What a member needs after its name. -/
def Valued (cs rest : List Char) : Prop := ∃ (gap before : Blanks) (v : List Char), Value v ∧
  cs = gap.chars ++ ':' :: (before.chars ++ (v ++ rest))

theorem readValue_sound {m m' : Members} {name : String} {cs rest : List Char}
    (h : readValue m name cs = .ok (m', rest)) : Valued cs rest := by
  have valued : ∀ {cs' : List Char}, readColon cs = .ok cs' →
      (∃ (ws : Blanks) (v : List Char), Value v ∧ cs' = ws.chars ++ (v ++ rest)) → Valued cs rest := by
    rintro cs' hcolon ⟨before, v, hv, rfl⟩
    obtain ⟨gap, rfl⟩ := readColon_sound hcolon
    exact ⟨gap, before, v, hv, rfl⟩
  simp only [readValue] at h
  split at h
  · split at h
    · cases h
    · split at h
      · cases h
      · rename_i cs' hcolon
        obtain ⟨r, hr, heq⟩ := map_eq_ok_iff.mp h
        cases heq
        exact valued hcolon (readCount_sound hr)
  · split at h
    · split at h
      · cases h
      · split at h
        · cases h
        · rename_i cs' hcolon
          obtain ⟨r, hr, heq⟩ := map_eq_ok_iff.mp h
          cases heq
          exact valued hcolon (readFlag_sound hr)
    · split at h
      · cases h
      · rename_i cs' hcolon
        obtain ⟨r, hr, heq⟩ := map_eq_ok_iff.mp h
        cases heq
        exact valued hcolon (skipValue_sound (lift_eq_ok_iff.mp hr))

theorem readMember_sound {m m' : Members} {cs rest : List Char} (after : Blanks)
    (h : readMember m cs = .ok (m', after.chars ++ rest)) :
    ∃ x : Member, Value x.item.value ∧ cs = x.named ++ rest := by
  unfold readMember at h
  split at h
  · cases h
  · rename_i text cs' htext
    obtain ⟨name, rfl⟩ := readText_sound htext
    obtain ⟨gap, before, v, hv, rfl⟩ := readValue_sound h
    exact ⟨⟨.none, name, gap, ⟨before, v, after⟩⟩, hv, by simp [Member.named, Item.spelling]⟩

/-- The members that are read are members, whatever they mean. -/
theorem readMembers_sound {m m' : Members} {cs rest : List Char}
    (h : readMembers m cs = .ok (m', rest)) : ∃ (x : Member) (xs : List Member),
      (∀ y ∈ x :: xs, Value y.item.value) ∧
      cs = x.named ++ ((xs.map Member.spelling).flatMap (',' :: ·) ++ '}' :: rest) := by
  fun_induction readMembers m cs with
  | case1 => cases h
  | case2 => cases h
  | case3 m cs m₁ rest₁ hread rest₂ hc =>
    cases h
    obtain ⟨after, rfl⟩ := exists_blanks_cons hc
    obtain ⟨x, hv, rfl⟩ := readMember_sound after hread
    exact ⟨x, [], by simpa using hv, rfl⟩
  | case4 => cases h
  | case5 m cs m₁ rest₁ hread rest₂ _ _ hc _ rest₃ hq _ ih =>
    obtain ⟨y, ys, hys, rfl⟩ := ih h
    obtain ⟨after, rfl⟩ := exists_blanks_cons hc
    obtain ⟨before, rfl⟩ := exists_blanks_cons hq
    obtain ⟨x, hv, rfl⟩ := readMember_sound after hread
    refine ⟨x, { y with before := before } :: ys, ?_, ?_⟩
    · exact List.forall_mem_cons.mpr ⟨hv, List.forall_mem_cons.mpr (List.forall_mem_cons.mp hys)⟩
    · simp [Member.spelling, Member.named]
  | case6 => cases h
  | case7 => cases h

theorem readObject_sound {m : Members} {cs rest : List Char} (h : readObject cs = .ok (m, rest)) :
    ∃ (ws : Blanks) (xs : List Member), (∀ x ∈ xs, Value x.item.value) ∧
      cs = inside ws (xs.map Member.spelling) ++ '}' :: rest := by
  unfold readObject at h
  split at h
  · cases h
  · rename_i c cs' hc
    obtain ⟨ws, rfl⟩ := exists_blanks_cons hc
    split at h
    · rename_i hclose
      cases h
      exact ⟨ws, [], by simp, by rw [hclose]; rfl⟩
    · split at h
      · rename_i hquote
        obtain ⟨x, xs, hxs, rfl⟩ := readMembers_sound h
        refine ⟨.none, { x with before := ws } :: xs, List.forall_mem_cons.mpr
          (List.forall_mem_cons.mp hxs), ?_⟩
        rw [hquote]
        simp [inside, Member.spelling, Member.named]
      · cases h

/-- Of the texts that begin like an object only documents are accepted. -/
theorem exists_document {text : String} {c : Config}
    (hbrace : (skipBlanks text.toList).head? = some '{') (h : read text = .ok c) :
    ∃ d : Document, d.text = text := by
  obtain ⟨cs, hcs⟩ : ∃ cs, skipBlanks text.toList = '{' :: cs := by
    cases hs : skipBlanks text.toList with
    | nil => simp [hs] at hbrace
    | cons b cs =>
      rw [hs] at hbrace
      cases hbrace
      exact ⟨cs, rfl⟩
  obtain ⟨before, hbefore⟩ := exists_blanks_cons hcs
  have hfront : readFront text.toList = readObject cs := by
    unfold readFront
    rw [hcs]
    rfl
  unfold read at h
  rw [hfront] at h
  cases hobject : readObject cs with
  | error f =>
    rw [hobject] at h
    cases h
  | ok r =>
    obtain ⟨m, rest⟩ := r
    obtain ⟨ws, xs, hxs, rfl⟩ := readObject_sound hobject
    rw [hobject] at h
    have hread : (if (skipBlanks rest).isEmpty then Except.ok m.config
      else Except.error Fault.malformed) = Except.ok c := h
    have hend : skipBlanks rest = [] := by
      split at hread
      · exact List.isEmpty_iff.mp ‹_›
      · cases hread
    obtain ⟨after, hafter⟩ := exists_blanks rest
    rw [hend, List.append_nil] at hafter
    refine ⟨⟨before, ws, xs, after, hxs⟩, ?_⟩
    have hspelling : (⟨before, ws, xs, after, hxs⟩ : Document).spelling = text.toList := by
      unfold Document.spelling
      rw [hbefore, ← hafter]
    unfold Document.text
    rw [hspelling, String.ofList_toList]

/-- A document is accepted exactly if it means a configuration, and is read as that: each of its names
says something, the interval is there at most once and a natural number below 2 ^ 64 in digits alone, the
disposal is there at most once and a flag, and what is missing takes its default; blanks, the order of
the members and all the others with whatever they hold do not matter. Any other text that begins like an
object is refused, so nothing is accepted in which a known member is repeated, be it under another
spelling, or has a value of another kind. A cache refuses to be built with the configuration exactly if
its interval is zero. -/
theorem configurations_are_read_exactly {η : Type} :
    (∀ (d : Document) (c : Config), read d.text = .ok c ↔ d.Means c) ∧
    (∀ (text : String) (c : Config), (skipBlanks text.toList).head? = some '{' → read text = .ok c →
      ∃ d : Document, d.text = text ∧ d.Means c) ∧
    ∀ c : Config, (Settings.ofConfig c : Settings η).checked = .error .zeroInterval ↔
      c.intervalMs = 0 := by
  refine ⟨read_document_iff, ?_, Settings.checked_ofConfig_eq_error_iff⟩
  intro text c hbrace h
  obtain ⟨d, rfl⟩ := exists_document hbrace h
  exact ⟨d, rfl, (read_document_iff d c).mp h⟩

/-- A text spelled without escapes. -/
def plainly (cs : List Char) : List Token :=
  cs.filterMap fun c => if h : c ≠ '"' ∧ c ≠ '\\' ∧ ¬c < ' ' then some (.plain c h) else none

/-- The second name has an escape in it, and the third is not known. -/
def Document.sample : Document where
  before := ⟨['\n'], List.all_eq_true.mp rfl⟩
  blank := .none
  members := [
    ⟨.none, plainly "expiration_timer_interval_ms".toList, ⟨[' '], List.all_eq_true.mp rfl⟩,
      ⟨⟨[' '], List.all_eq_true.mp rfl⟩, "250".toList, .none⟩⟩,
    ⟨⟨[' '], List.all_eq_true.mp rfl⟩, .unit "0064".toList 100 (by decide) (by decide) ::
      plainly "ispose_values_on_removal".toList, .none, ⟨.none, "true".toList, .none⟩⟩,
    ⟨.none, plainly "note".toList, .none, ⟨.none, "[\x7b\x7d, null]".toList, .none⟩⟩]
  after := ⟨['\t'], List.all_eq_true.mp rfl⟩
  valued := by
    have hcount : Value "250".toList := .number ⟨false, ⟨"250".toList, by decide,
      List.all_eq_true.mp rfl⟩, none, none, by decide⟩
    have hlist : Value "[\x7b\x7d, null]".toList := .list .none
      [⟨.none, "\x7b\x7d".toList, .none⟩, ⟨⟨[' '], List.all_eq_true.mp rfl⟩, "null".toList, .none⟩]
      (List.forall_mem_cons.mpr ⟨.object .none [] (by simp),
        List.forall_mem_cons.mpr ⟨.null, by simp⟩⟩)
    exact List.forall_mem_cons.mpr ⟨hcount, List.forall_mem_cons.mpr ⟨.flag true,
      List.forall_mem_cons.mpr ⟨hlist, by simp⟩⟩⟩

theorem sample_is_read : Document.sample.text =
      "\n\x7b\"expiration_timer_interval_ms\" : 250, \"\\u0064ispose_values_on_removal\":true," ++
      "\"note\":[\x7b\x7d, null]\x7d\t" ∧ read Document.sample.text = .ok ⟨250, true⟩ := by
  refine ⟨by decide +kernel, (configurations_are_read_exactly (η := Unit)).1 _ _ |>.mpr ?_⟩
  exact ⟨by decide +kernel, .inr ⟨"250".toList, by decide +kernel⟩,
    .inr ⟨"true".toList, by decide +kernel⟩⟩

end Config

end ExpiringCache
