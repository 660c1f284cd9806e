/-
What the tokenizer does with a text without tags: each `<` in it is dropped. Source: renderer/html/token.rs.
-/
import Liumos.Browser.HtmlRoundTrip

namespace Liumos.Browser

open List Nat

namespace HtmlTokenizer

variable {t t' : HtmlTokenizer} {c d : Char} {rest s : List Char}

/-- Every `<` is followed by a character that is neither a letter nor `/`. -/
def NoTags (s : List Char) : Prop := ∀ before after, s = before ++ '<' :: after →
  ∃ c rest, after = c :: rest ∧ c.isAlpha = false ∧ c ≠ '/'

theorem NoTags.tail (h : NoTags (c :: s)) : NoTags s := fun before after hs => h (c :: before) after (by rw [hs]; rfl)

/-- Within a call of `next`, the characters `<` are passed over up to the next other one. -/
theorem Reaches.noTags : ∀ {s : List Char}, NoTags s → s ≠ [] → Reaches t .data none s → Ready t (d :: rest) →
    ∃ c s' t', s.filter (· ≠ '<') = c :: s'.filter (· ≠ '<') ∧ NoTags s' ∧ s'.length < s.length ∧
      next t = .ok (some (.char c), t') ∧ Ready t' s'
  | c :: s, hs, _, h, ht => by
    by_cases hc : c = '<'
    · subst hc
      obtain ⟨c, s, rfl, halpha, hslash⟩ := hs [] s rfl
      have hopen : Reaches t .tagOpen none (c :: s) := h.go fun pos input hpos => rfl
      have hback : Reaches t .data none (c :: s) :=
        hopen.back fun pos input hpos => by simp [react, tagOpenState, hslash, halpha, isEof, hpos]
      obtain ⟨c', s', t', hfilter, hs', hlt, hnext⟩ := Reaches.noTags hs.tail (cons_ne_nil c s) hback ht
      refine ⟨c', s', t', ?_, hs', hlt.trans (lt_succ_self _), hnext⟩
      rw [filter_cons_of_neg (by simp), hfilter]
    · obtain ⟨t', hnext, ht'⟩ := h.emit ht fun pos input hpos => by simp [react, dataState, hc, isEof, hpos]; rfl
      exact ⟨c, s, t', filter_cons_of_pos (by simpa using hc), hs.tail, lt_succ_self _, hnext, ht'⟩

theorem Ready.emits_noTags (hs : NoTags s) (h : Ready t s) : Emits ((s.filter (· ≠ '<')).map .char) t := by
  induction hn : s.length using Nat.strong_induction_on generalizing s t with
  | _ n ih =>
    cases s with
    | nil => exact ⟨t, h.next_nil⟩
    | cons c s =>
      obtain ⟨_, _, t', hfilter, hs', hlt, hnext, ht'⟩ := h.reaches.noTags hs (cons_ne_nil c s) h
      rw [hfilter, map_cons]
      exact ⟨t', hnext, ih _ (hn ▸ hlt) hs' ht' rfl⟩

theorem Emits.unique :
    ∀ {tokens tokens' : List HtmlToken} {t : HtmlTokenizer}, Emits tokens t → Emits tokens' t → tokens = tokens'
  | [], [], _, _, _ => rfl
  | [], _ :: _, _, ⟨_, h⟩, ⟨_, h', _⟩ => by cases h.symm.trans h'
  | _ :: _, [], _, ⟨_, h, _⟩, ⟨_, h'⟩ => by cases h.symm.trans h'
  | _ :: _, _ :: _, _, ⟨_, h, hrest⟩, ⟨_, h', hrest'⟩ => by
    cases h.symm.trans h'
    rw [hrest.unique hrest']

/-- The characters of a text without tags all come back exactly if there is no `<` among them. -/
theorem emits_noTags_iff {html : List Char} (hhtml : NoTags html) : Emits (html.map .char) (new html) ↔ '<' ∉ html := by
  have hdropped := (ready_new html).emits_noTags hhtml
  constructor
  · intro h hmem
    have hsame := map_injective_iff.2 (fun _ _ => HtmlToken.char.inj) (h.unique hdropped)
    rw [hsame] at hmem
    simp at hmem
  · intro hmem
    rwa [filter_eq_self.2 fun c hc => by simpa using fun he : c = '<' => hmem (he ▸ hc)] at hdropped

theorem emits_noTags_sum : Emits (['1', '+', '2'].map .char) (new ['1', '+', '2']) := by
  refine (emits_noTags_iff fun before after h => ?_).2 (by decide)
  have hmem : '<' ∈ ['1', '+', '2'] := h ▸ by simp
  exact absurd hmem (by decide)

/-- `1 < 2`: the sign is dropped. -/
theorem emits_noTags_less : NoTags ['1', '<', '2'] ∧ Emits [.char '1', .char '2'] (new ['1', '<', '2']) ∧
    ¬ Emits (['1', '<', '2'].map .char) (new ['1', '<', '2']) := by
  have hs : NoTags ['1', '<', '2'] := by
    rintro (_ | ⟨_, _ | ⟨_, _ | ⟨_, _⟩⟩⟩) _ h
    · cases h
    · cases h
      exact ⟨'2', [], rfl, rfl, by decide⟩
    · cases h
    · simp at h
  have hemits := (ready_new ['1', '<', '2']).emits_noTags hs
  exact ⟨hs, hemits, fun h => absurd (h.unique hemits) (by decide)⟩

end HtmlTokenizer

end Liumos.Browser
