/-
What the lexer returns: which tokens take input, where a reserved word is found, and what becomes of a run of
identifier characters. A reserved word is looked for before anything else, at every token, and also where less input
is left than the word is long. Source: token.rs.
-/
import Liumos.Saji.Token
import Mathlib.Data.List.DropRight

namespace Liumos.Saji

open List

namespace JsLexer

/-! ## Tokens take input -/

variable {t t' : List Char} {token : Token}

theorem getNextToken_dropWhile (t : List Char) : getNextToken (t.dropWhile isSpace) = getNextToken t := by
  unfold getNextToken
  rw [dropWhile_idempotent]

theorem contains_ne_diverges : ∀ keyword input : List Char, contains keyword input ≠ .error .diverges
  | [], _ => nofun
  | _ :: _, [] => nofun
  | k :: keyword, c :: input => by
    rw [contains]
    split
    · exact nofun
    · exact contains_ne_diverges keyword input

theorem checkReservedWord_ne_diverges (input : List Char) : ∀ words, checkReservedWord words input ≠ .error .diverges
  | [] => nofun
  | word :: words => by
    rw [checkReservedWord]
    split
    · exact nofun
    · exact checkReservedWord_ne_diverges input words
    · rename_i e he
      intro h
      exact contains_ne_diverges word input (he.trans (congrArg _ (Except.error.inj h)))

theorem checkReservedWord_mem {input word : List Char} :
    ∀ {words}, checkReservedWord words input = .ok (some word) → word ∈ words
  | [], h => by cases h
  | w :: words, h => by
    rw [checkReservedWord] at h
    split at h
    · cases h
      exact mem_cons_self
    · exact mem_cons_of_mem w (checkReservedWord_mem h)
    · cases h

theorem getNextToken_ne_diverges (t : List Char) : getNextToken t ≠ .error .diverges := by
  unfold getNextToken
  split
  · exact nofun
  · split
    · exact nofun
    · unfold tokenAt
      split_ifs <;> exact nofun
    · rename_i e he
      intro h
      exact checkReservedWord_ne_diverges _ _ (he.trans (congrArg _ (Except.error.inj h)))

theorem length_consumeString_le (rest : List Char) : (consumeString rest).2.length ≤ rest.length := by
  rw [consumeString, length_tail]
  exact (Nat.sub_le _ _).trans (length_dropWhile_le _ _)

/-- A token takes input, except for the empty name. -/
theorem tokenAt_length {c : Char} {rest : List Char} (h : tokenAt c rest = .ok (token, t')) :
    (token = .identifier [] ∧ t' = c :: rest) ∨ (token ≠ .identifier [] ∧ t'.length ≤ rest.length) := by
  unfold tokenAt at h
  split_ifs at h with hpunctuator hquote hdigit hstart
  · cases h
    exact .inr ⟨nofun, le_refl _⟩
  · cases h
    exact .inr ⟨nofun, length_consumeString_le rest⟩
  · cases h
    refine .inr ⟨nofun, ?_⟩
    rw [consumeNumber, Scan.number, if_pos hdigit]
    exact Scan.length_number_le _ rest
  · cases h
    cases hpart : isIdentifierPart c with
    | false => exact .inl ⟨by simp [consumeIdentifier, takeWhile, hpart], by simp [consumeIdentifier, dropWhile, hpart]⟩
    | true =>
      refine .inr ⟨by simp [consumeIdentifier, takeWhile, hpart], ?_⟩
      simp only [consumeIdentifier, dropWhile, hpart]
      exact length_dropWhile_le _ _

/-- The empty name is read at an underscore only. -/
theorem tokenAt_empty {c : Char} {rest : List Char} (h : tokenAt c rest = .ok (.identifier [], t')) : c = '_' := by
  unfold tokenAt at h
  split_ifs at h with hpunctuator hquote hdigit hstart
  · cases h
  · cases h
  · cases h
  · cases hpart : isIdentifierPart c with
    | true => simp [consumeIdentifier, takeWhile, hpart] at h
    | false =>
      simp only [isIdentifierPart, Char.isAlphanum, Bool.or_eq_false_iff] at hpart
      simpa [isIdentifierStart, hpart] using hstart

theorem getNextToken_some (h : getNextToken t = .ok (some token, t')) :
    (token = .identifier [] ∧ t' = t.dropWhile isSpace) ∨ (token ≠ .identifier [] ∧ t'.length < t.length) := by
  have hle : (t.dropWhile isSpace).length ≤ t.length := length_dropWhile_le _ _
  unfold getNextToken at h
  split at h
  · cases h
  · rename_i c rest hdrop
    rw [hdrop] at hle ⊢
    rw [length_cons] at hle
    split at h
    · rename_i keyword hword
      cases h
      refine .inr ⟨nofun, ?_⟩
      have hpos : 0 < keyword.length := by
        have hmem := checkReservedWord_mem hword
        simp only [reservedWords, mem_cons, not_mem_nil, or_false] at hmem
        rcases hmem with rfl | rfl | rfl <;> decide
      rw [length_drop, length_cons]
      omega
    · cases htoken : tokenAt c rest with
      | error e =>
        rw [htoken] at h
        cases h
      | ok x =>
        rw [htoken] at h
        cases h
        obtain ⟨hempty, hrest⟩ | ⟨hne, hlt⟩ := tokenAt_length htoken
        · exact .inl ⟨hempty, hrest⟩
        · exact .inr ⟨hne, by omega⟩
    · cases h

theorem getNextToken_none (h : getNextToken t = .ok (none, t')) : t' = [] := by
  unfold getNextToken at h
  split at h
  · cases h
    rfl
  · split at h
    · cases h
    · unfold tokenAt at h
      split_ifs at h <;> cases h
    · cases h

theorem length_getNextToken_le {r : Option Token} (h : getNextToken t = .ok (r, t')) : t'.length ≤ t.length := by
  cases r with
  | none => simp [getNextToken_none h]
  | some token =>
    obtain ⟨-, rfl⟩ | ⟨-, hlt⟩ := getNextToken_some h
    · exact length_dropWhile_le _ _
    · exact hlt.le

theorem getNextToken_keyword {word : List Char} (h : getNextToken t = .ok (some (.keyword word), t')) :
    word ∈ reservedWords := by
  unfold getNextToken at h
  split at h
  · cases h
  · split at h
    · rename_i hword
      cases h
      exact checkReservedWord_mem hword
    · unfold tokenAt at h
      split_ifs at h <;> cases h
    · cases h

/-- An empty name is there again after it was read. -/
theorem getNextToken_empty (h : getNextToken t = .ok (some (.identifier []), t')) :
    getNextToken t' = .ok (some (.identifier []), t') := by
  obtain ⟨-, rfl⟩ | ⟨hne, -⟩ := getNextToken_some h
  · rw [getNextToken_dropWhile, h]
  · exact absurd rfl hne

/-! ## Kinds of characters -/

section

variable {P : Char → Bool} {c : Char}

theorem of_isSpace (h : isSpace c = true) (hP : ∀ d ∈ [' ', '\n'], P d = false) : P c = false := by
  refine hP c ?_
  simpa [isSpace] using h

theorem of_isPunctuator (h : isPunctuator c = true)
    (hP : ∀ d ∈ ['+', '-', ';', '=', '(', ')', '\x7b', '\x7d', ','], P d = false) : P c = false := by
  refine hP c ?_
  simpa [isPunctuator] using h

theorem isSpace_eq_false (P : Char → Bool) (hc : P c = true) (hP : ∀ d ∈ [' ', '\n'], P d = false) :
    isSpace c = false := by
  cases h : isSpace c with
  | false => rfl
  | true => cases hc.symm.trans (of_isSpace h hP)

theorem isPunctuator_eq_false (P : Char → Bool) (hc : P c = true)
    (hP : ∀ d ∈ ['+', '-', ';', '=', '(', ')', '\x7b', '\x7d', ','], P d = false) : isPunctuator c = false := by
  cases h : isPunctuator c with
  | false => rfl
  | true => cases hc.symm.trans (of_isPunctuator h hP)

end

/-! ## Reserved words -/

variable {word name rest : List Char} {c : Char}

/-- Input that ends within the word is read past its end. -/
theorem contains_eq : ∀ word input : List Char, contains word input =
    if word <+: input then .ok true else if input <+: word then .error (.message "index out of bounds") else .ok false
  | [], _ => (if_pos nil_prefix).symm
  | k :: word, [] => by simp [contains]
  | k :: word, c :: input => by
    rw [contains, contains_eq word input]
    by_cases hk : k = c
    · simp [cons_prefix_cons, hk]
    · simp [cons_prefix_cons, hk, Ne.symm hk]

theorem checkReservedWord_none {input : List Char} :
    ∀ {words : List (List Char)}, (∀ word ∈ words, contains word input = .ok false) →
    checkReservedWord words input = .ok none
  | [], _ => rfl
  | word :: words, h => by
    rw [checkReservedWord, h word mem_cons_self]
    exact checkReservedWord_none fun w hw => h w (mem_cons_of_mem word hw)

/-- The input ends within a reserved word. -/
theorem checkReservedWord_cut {input : List Char} (hword : word ∈ reservedWords) (h : input <+: word)
    (hnil : input ≠ []) (hne : input ≠ word) : (checkReservedWord reservedWords input).toBool = false := by
  have hall : ∀ w ∈ reservedWords, ∀ u ∈ w.inits, u ≠ [] → u ≠ w → (checkReservedWord reservedWords u).toBool =
    false := by decide
  exact hall word hword input ((mem_inits _ _).2 h) hnil hne

/-- A name is compared with a word up to a character that is no letter. -/
theorem contains_name (hword : word ∈ reservedWords) (hname : ¬ word <+: name) (hc : c.isAlpha = false) :
    contains word (name ++ c :: rest) = .ok false := by
  have hletters : ∀ w ∈ reservedWords, ∀ d ∈ w, d.isAlpha = true := by
    simp [reservedWords, Reserved.var, Reserved.function, Reserved.return]
  have hmem : c ∉ word := fun hmem => by cases hc.symm.trans (hletters word hword c hmem)
  rw [contains_eq, if_neg, if_neg]
  · exact fun h => hmem (h.subset (by simp))
  · intro h
    rcases prefix_or_prefix_of_prefix h (prefix_append (name ++ [c]) rest |>.trans (by simp)) with h | h
    · rcases prefix_concat_iff.1 h with rfl | h
      · exact hmem (by simp)
      · exact hname h
    · exact hmem (h.subset (by simp))

theorem contains_other (hword : word ∈ reservedWords) (hc : c.isAlpha = false) :
    contains word (c :: rest) = .ok false := by
  have hne : ∀ w ∈ reservedWords, ¬ w <+: [] := by decide
  exact contains_name hword (hne word hword) hc

/-! ## What comes next -/

/-- What comes of a character that begins no reserved word. -/
theorem getNextToken_of_tokenAt {t' : List Char} (hdrop : t.dropWhile isSpace = c :: rest)
    (hwords : ∀ word ∈ reservedWords, contains word (c :: rest) = .ok false)
    (htoken : tokenAt c rest = .ok (token, t')) : getNextToken t = .ok (some token, t') := by
  unfold getNextToken
  rw [hdrop]
  dsimp only
  rw [checkReservedWord_none hwords, htoken]
  rfl

theorem getNextToken_reserved (hdrop : t.dropWhile isSpace = word ++ rest) (hword : word ∈ reservedWords) :
    getNextToken t = .ok (some (.keyword word), rest) := by
  unfold getNextToken
  rw [hdrop]
  simp only [reservedWords, mem_cons, not_mem_nil, or_false] at hword
  rcases hword with rfl | rfl | rfl <;> rfl

theorem getNextToken_name {d : Char} (hdrop : t.dropWhile isSpace = c :: name ++ d :: rest)
    (hc : c.isAlpha = true ∨ c = '$') (hname : ∀ e ∈ c :: name, isIdentifierPart e = true)
    (hd : isIdentifierPart d = false) (hreserved : ∀ word ∈ reservedWords, ¬ word <+: c :: name) :
    getNextToken t = .ok (some (.identifier (c :: name)), d :: rest) := by
  have hletter : d.isAlpha = false := by
    simp only [isIdentifierPart, Char.isAlphanum, Bool.or_eq_false_iff] at hd
    exact hd.1.1
  have hstart : (c.isAlpha || c == '$') = true := by simpa using hc
  refine getNextToken_of_tokenAt hdrop (fun word hword => contains_name hword (hreserved word hword) hletter) ?_
  have hpunctuator : isPunctuator c = false := isPunctuator_eq_false (fun c => c.isAlpha || c == '$') hstart (by simp)
  have hquote : c ≠ '"' := by
    rintro rfl
    cases hstart
  have hdigit : c.isDigit = false := by
    rcases hc with hc | rfl
    · exact Scan.isDigit_of_isAlpha hc
    · rfl
  have hstart' : isIdentifierStart c = true := by
    rcases hc with hc | rfl
    · simp [isIdentifierStart, hc]
    · rfl
  have hconsume : consumeIdentifier (c :: name ++ d :: rest) = (c :: name, d :: rest) := by
    rw [consumeIdentifier, Scan.takeWhile_append hname (Scan.stops_cons.2 hd),
      Scan.dropWhile_append hname (Scan.stops_cons.2 hd)]
  rw [tokenAt, hpunctuator, if_neg Bool.false_ne_true, if_neg hquote, hdigit, if_neg Bool.false_ne_true, if_pos hstart']
  show Except.ok (Token.identifier (consumeIdentifier (c :: name ++ d :: rest)).1,
    (consumeIdentifier (c :: name ++ d :: rest)).2) = _
  rw [hconsume]

/-- A run of identifier characters is taken as a whole, as a keyword or a name, exactly if no other reserved word is
at its beginning. -/
theorem getNextToken_longest_iff {ws w rest : List Char} {c d : Char} (hws : ∀ e ∈ ws, isSpace e = true)
    (hc : c.isAlpha = true ∨ c = '$') (hw : ∀ e ∈ w, e.isAlphanum = true ∨ e = '$')
    (hd : isSpace d = true ∨ isPunctuator d = true) :
    getNextToken (ws ++ (c :: w ++ d :: rest)) =
        .ok (some (if c :: w ∈ reservedWords then .keyword (c :: w) else .identifier (c :: w)), d :: rest) ↔
      ∀ word ∈ reservedWords, word <+: c :: w → word = c :: w := by
  have hstart : (c.isAlpha || c == '$') = true := by simpa using hc
  have hdrop : (ws ++ (c :: w ++ d :: rest)).dropWhile isSpace = c :: w ++ d :: rest :=
    Scan.dropWhile_append hws (Scan.stops_cons.2 (isSpace_eq_false (fun c => c.isAlpha || c == '$') hstart (by simp)))
  constructor
  · intro h word hword hprefix
    by_contra hne
    obtain ⟨s, hs⟩ := hprefix
    have hkeyword := getNextToken_reserved (hdrop.trans (by rw [← hs, append_assoc])) hword
    rw [hkeyword] at h
    have htoken := (Prod.mk.inj (Except.ok.inj h)).1
    split_ifs at htoken with hmem
    · cases htoken
      exact hne rfl
    · cases htoken
  · intro h
    have hpart : ∀ e ∈ c :: w, isIdentifierPart e = true := by
      intro e he
      rcases mem_cons.1 he with rfl | he
      · simpa [isIdentifierPart, Char.isAlphanum, or_right_comm] using Or.inl hc
      · simpa [isIdentifierPart] using hw e he
    have hstop : isIdentifierPart d = false := by
      rcases hd with hd | hd
      · exact of_isSpace hd (by simp [isIdentifierPart])
      · exact of_isPunctuator hd (by simp [isIdentifierPart])
    split_ifs with hmem
    · exact getNextToken_reserved hdrop hmem
    · exact getNextToken_name hdrop hc hpart hstop fun word hword hprefix => hmem (h word hword hprefix ▸ hword)

/-- `f1 =`. -/
theorem getNextToken_longest_name :
    getNextToken ['f', '1', ' ', '='] = .ok (some (.identifier ['f', '1']), [' ', '=']) :=
  (getNextToken_longest_iff (c := 'f') (w := ['1']) (d := ' ') (forall_mem_nil _) (.inl rfl)
    (forall_mem_singleton.2 (.inl rfl)) (.inl rfl)).2 (by decide)

/-- `variable;` is read as the keyword `var` and what is left. -/
theorem getNextToken_variable : getNextToken ['v', 'a', 'r', 'i', 'a', 'b', 'l', 'e', ';'] =
    .ok (some (.keyword ['v', 'a', 'r']), ['i', 'a', 'b', 'l', 'e', ';']) := rfl

/-! ## Progress -/

/-- The characters the lexer has a token for, and the spaces. -/
def isAccepted (c : Char) : Bool := isSpace c || isPunctuator c || c == '"' || c.isDigit || isIdentifierStart c

/-- Where a token begins, the lexer returns one and moves on exactly if what is left does not end within a reserved
word and it does not stand at an underscore. -/
theorem getNextToken_progress_iff {t : List Char} (haccepted : ∀ c ∈ t, isAccepted c = true)
    (hrest : t.dropWhile isSpace ≠ []) :
    (∃ token t', getNextToken t = .ok (some token, t') ∧ t'.length < t.length) ↔
      (∀ word ∈ reservedWords, t.dropWhile isSpace <+: word → t.dropWhile isSpace = word) ∧ t.head? ≠ some '_' := by
  obtain ⟨c, rest, hdrop⟩ := exists_cons_of_ne_nil hrest
  constructor
  · rintro ⟨token, t', h, hlt⟩
    refine ⟨fun word hword hprefix => ?_, fun hhead => ?_⟩
    · by_contra hne
      have hcut := checkReservedWord_cut hword hprefix hrest hne
      unfold getNextToken at h
      rw [hdrop] at h hcut
      cases hcheck : checkReservedWord reservedWords (c :: rest) with
      | ok r =>
        rw [hcheck] at hcut
        cases hcut
      | error e =>
        simp only [hcheck] at h
        cases h
    · obtain ⟨s, rfl⟩ : ∃ s, t = '_' :: s := ⟨t.tail, (cons_head?_tail hhead).symm⟩
      have hempty : getNextToken ('_' :: s) = .ok (some (.identifier []), '_' :: s) := rfl
      cases h
      exact lt_irrefl _ hlt
  · rintro ⟨hcut, hhead⟩
    by_cases hword : ∃ word ∈ reservedWords, word <+: t.dropWhile isSpace
    · obtain ⟨word, hword, s, hs⟩ := hword
      have h := getNextToken_reserved hs.symm hword
      obtain ⟨hempty, -⟩ | ⟨-, hlt⟩ := getNextToken_some h
      · cases hempty
      · exact ⟨_, _, h, hlt⟩
    · simp only [not_exists, not_and] at hword
      have hwords : ∀ word ∈ reservedWords, contains word (c :: rest) = .ok false := by
        intro word hmem
        rw [contains_eq, ← hdrop, if_neg (hword word hmem), if_neg]
        exact fun hprefix => hword word hmem (by rw [hcut word hmem hprefix])
      have hspace : isSpace c = false := by
        have := head?_dropWhile_not isSpace t
        simpa [hdrop] using this
      have hc : isAccepted c = true := haccepted c ((dropWhile_sublist _).subset (by rw [hdrop]; exact mem_cons_self))
      obtain ⟨token, t', htoken⟩ : ∃ token t', tokenAt c rest = .ok (token, t') := by
        unfold tokenAt
        split_ifs with h1 h2 h3 h4
        · exact ⟨_, _, rfl⟩
        · exact ⟨_, _, rfl⟩
        · exact ⟨_, _, rfl⟩
        · exact ⟨_, _, rfl⟩
        · simp [isAccepted, hspace, h1, h2, h3, h4] at hc
      have h := getNextToken_of_tokenAt hdrop hwords htoken
      obtain ⟨rfl, rfl⟩ | ⟨-, hlt⟩ := getNextToken_some h
      · -- spaces come before the underscore
        refine ⟨_, _, h, ?_⟩
        refine lt_of_le_of_ne (length_dropWhile_le _ _) fun hlen => hhead ?_
        rw [← (dropWhile_suffix isSpace).eq_of_length hlen, hdrop, tokenAt_empty htoken]
        rfl
      · exact ⟨_, _, h, hlt⟩

theorem getNextToken_progress_number :
    ∃ token t', getNextToken [' ', '4', '2'] = .ok (some token, t') ∧ t'.length < 3 :=
  (getNextToken_progress_iff (t := [' ', '4', '2']) (all_eq_true.1 rfl) (by decide)).2 (by decide)

/-- The first letter of `var` at the end of the input, and an underscore. -/
theorem getNextToken_stuck : (∀ c ∈ ['v'], isAccepted c = true) ∧ (∀ c ∈ ['_'], isAccepted c = true) ∧
    getNextToken ['v'] = .error (.message "index out of bounds") ∧
    getNextToken ['_'] = .ok (some (.identifier []), ['_']) := ⟨all_eq_true.1 rfl, all_eq_true.1 rfl, rfl, rfl⟩

end JsLexer

end Liumos.Saji
