import Bettergram.Base.StripSteps

/-! # Strings that the stripper sees

A literal is passed as it is unless something in it is taken for a comment. That
happens only when the stripper has lost count of the quotes.
-/

namespace Bettergram.Base.Parse.Strip

variable {s : Strip} {before out : List UInt8} {inside doubled : Bool} {r : List UInt8}

/-- What stands before: two backslashes, or a character that is none. -/
def Follows (before : List UInt8) (doubled : Bool) : Prop :=
  if doubled then before.head? = some chBackslash ∧ before.tail.head? = some chBackslash
  else before.head? ≠ some chBackslash

theorem Follows.escapedBy (h : Follows before doubled) : escapedBy before = false := by
  rw [Strip.escapedBy]
  cases doubled with
  | true => simp [(show _ ∧ _ from h).2]
  | false => simp [show _ ≠ _ from h]

theorem Follows.escapedBy_cons (h : Follows before doubled) :
    Strip.escapedBy (chBackslash :: before) = !doubled := by
  cases doubled with
  | true => simp [Strip.escapedBy, (show _ ∧ _ from h).1]
  | false =>
    have hne : before.head? ≠ some chBackslash := h
    simp [Strip.escapedBy, hne]

theorem follows_of_ne {c : UInt8} (hc : c ≠ chBackslash) (before : List UInt8) :
    Follows (c :: before) false := by
  simpa [Follows] using hc

/-- A piece of a literal; a quote behind an escaped backslash is taken for the end of the string, or
for its beginning. -/
theorem Outside.piece (hs : s.Outside before out inside) (hbefore : Follows before doubled)
    (piece : Piece) (hquiet : (inside ^^ flipsOf doubled piece) = true ∨
      startsComment (piece.last :: r) = false) :
    ∃ s' : Strip, s.loop (piece.bytes ++ r) = s'.loop r ∧
      s'.Outside (piece.bytes.reverse ++ before) (out ++ piece.bytes)
        (inside ^^ flipsOf doubled piece) ∧
      Follows (piece.bytes.reverse ++ before) piece.isBackslash := by
  cases piece with
  | plain c hc =>
    have hflip : (inside ^^ flipsOf doubled (.plain c hc)) = inside := by
      rw [flipsOf, Piece.isQuote, Bool.and_false, Bool.xor_false]
    rw [hflip] at hquiet ⊢
    obtain ⟨s', hloop, hs'⟩ := hs.pass (by rwa [turnedBy_of_ne hc.1])
    rw [turnedBy_of_ne hc.1] at hs'
    exact ⟨s', hloop, hs', follows_of_ne hc.2 before⟩
  | escaped c =>
    have hslash : startsComment (chBackslash :: c :: r) = false := by
      simp [startsComment, chBackslash, chSlash]
    obtain ⟨s', hloop, hs'⟩ := hs.pass (.inr hslash)
    rw [turnedBy_of_ne (by decide)] at hs'
    have hturned : turnedBy (chBackslash :: before) inside c =
        (inside ^^ flipsOf doubled (.escaped c)) := by
      rw [turnedBy, hbefore.escapedBy_cons, flipsOf, Piece.isQuote]
      by_cases hc : c = chQuote <;> cases doubled <;> cases inside <;> simp [hc]
    obtain ⟨s'', hloop', hs''⟩ := hs'.pass (c := c) (r := r) (by rwa [hturned])
    rw [hturned] at hs''
    refine ⟨s'', ?_, ?_, ?_⟩
    · rw [Piece.bytes, List.cons_append, List.cons_append, List.nil_append, hloop, hloop']
    · simpa [Piece.bytes] using hs''
    · by_cases hc : c = chBackslash
      · simp [Follows, Piece.isBackslash, Piece.bytes, hc]
      · simpa [Piece.isBackslash, hc, Piece.bytes] using follows_of_ne hc (chBackslash :: before)

/-- A closing quote hides nothing. -/
theorem startsComment_quote (c : UInt8) (text r : List UInt8) :
    startsComment (c :: (text ++ chQuote :: r)) = startsComment (c :: text) := by
  cases text with
  | nil => simp [startsComment, chQuote, chSlash, chAsterisk]
  | cons d text => rfl

theorem Outside.pieces {pieces : List Piece} {flipped : Bool}
    (hs : s.Outside before out !flipped) (hbefore : Follows before doubled)
    (hquiet : Quiet flipped doubled pieces) :
    ∃ (s' : Strip) (doubled' : Bool),
      s.loop (literalBytes pieces ++ chQuote :: r) = s'.loop (chQuote :: r) ∧
      s'.Outside ((literalBytes pieces).reverse ++ before) (out ++ literalBytes pieces)
        (!flippedAfter flipped doubled pieces) ∧
      Follows ((literalBytes pieces).reverse ++ before) doubled' := by
  induction pieces generalizing s before out flipped doubled with
  | nil => exact ⟨s, doubled, rfl, by simpa [literalBytes, flippedAfter] using hs, hbefore⟩
  | cons piece pieces ih =>
    have hinside : ((!flipped) ^^ flipsOf doubled piece) = !(flipped ^^ flipsOf doubled piece) :=
      Bool.not_xor ..
    have hpiece : ((!flipped) ^^ flipsOf doubled piece) = true ∨
        startsComment (piece.last :: (literalBytes pieces ++ chQuote :: r)) = false := by
      rw [startsComment_quote, hinside]
      cases hflip : (flipped ^^ flipsOf doubled piece) with
      | true => exact .inr (hquiet.1 hflip)
      | false => exact .inl rfl
    obtain ⟨s', hloop, hs', hfollows⟩ := hs.piece hbefore piece hpiece
    rw [hinside] at hs'
    obtain ⟨s'', doubled', hloop', hs'', hfollows'⟩ := ih hs' hfollows hquiet.2
    refine ⟨s'', doubled', ?_, ?_, ?_⟩
    · rw [literalBytes, List.flatMap_cons, List.append_assoc, ← literalBytes, hloop, hloop']
    · simpa [literalBytes, flippedAfter] using hs''
    · simpa [literalBytes] using hfollows'

/-- A comment that the stripper takes itself to see. -/
theorem Outside.seen (hs : s.Outside before out false) (hstarts : startsComment r = true) :
    (∃ behind, r = chSlash :: behind) ∧
      ((s.loop r).kept = out ∨ ∃ t, (s.loop r).kept = out ++ chSpace :: t) := by
  obtain ⟨c, d, text, rfl⟩ : ∃ c d text, r = c :: d :: text := by
    cases r with
    | nil => cases hstarts
    | cons c r =>
      cases r with
      | nil => cases hstarts
      | cons d text => exact ⟨c, d, text, rfl⟩
  simp only [startsComment, Bool.and_eq_true, Bool.or_eq_true, decide_eq_true_eq] at hstarts
  obtain ⟨rfl, hd⟩ := hstarts
  obtain ⟨s', hloop, hresult, hstring, hpending, hpassed, hcomment⟩ := hs.start (r := text) hd
  refine ⟨⟨_, rfl⟩, ?_⟩
  rw [hloop]
  have hs' : s'.Inside s'.insideComment (d :: chSlash :: before) out [chSlash, d] :=
    ⟨rfl, hstring, hpassed, hresult, hpending⟩
  exact hs'.seen (by rw [hcomment]; split <;> decide) (by simp) text

/-- A literal with a part that the stripper takes for a comment. -/
theorem Outside.stray {pieces : List Piece} {flipped : Bool}
    (hs : s.Outside before out !flipped) (hbefore : Follows before doubled)
    (hquiet : ¬Quiet flipped doubled pieces) :
    ∃ part behind, literalBytes pieces = part ++ chSlash :: behind ∧
      ((s.loop (literalBytes pieces ++ chQuote :: r)).kept = out ++ part ∨
        ∃ t, (s.loop (literalBytes pieces ++ chQuote :: r)).kept =
          out ++ part ++ chSpace :: t) := by
  induction pieces generalizing s before out flipped doubled with
  | nil => exact absurd trivial hquiet
  | cons piece pieces ih =>
    have hinside : ((!flipped) ^^ flipsOf doubled piece) = !(flipped ^^ flipsOf doubled piece) :=
      Bool.not_xor ..
    have hbytes : literalBytes (piece :: pieces) = piece.bytes ++ literalBytes pieces :=
      List.flatMap_cons
    rw [hbytes, List.append_assoc]
    by_cases hpiece : (flipped ^^ flipsOf doubled piece) = true →
        startsComment (piece.last :: literalBytes pieces) = false
    · have hpass : ((!flipped) ^^ flipsOf doubled piece) = true ∨
          startsComment (piece.last :: (literalBytes pieces ++ chQuote :: r)) = false := by
        rw [startsComment_quote, hinside]
        cases hflip : (flipped ^^ flipsOf doubled piece) with
        | true => exact .inr (hpiece hflip)
        | false => exact .inl rfl
      obtain ⟨s', hloop, hs', hfollows⟩ := hs.piece hbefore piece hpass
      rw [hinside] at hs'
      obtain ⟨part, behind, hpart, hkept⟩ := ih hs' hfollows fun hrest => hquiet ⟨hpiece, hrest⟩
      refine ⟨piece.bytes ++ part, behind, by rw [hpart, List.append_assoc], ?_⟩
      rw [hloop, ← List.append_assoc]
      exact hkept
    · rw [Classical.not_imp, Bool.not_eq_false] at hpiece
      obtain ⟨hflip, hstarts⟩ := hpiece
      have hstarts' := hstarts
      rw [← startsComment_quote _ _ r] at hstarts'
      cases piece with
      | plain c hc =>
        have hflipped : flipped = true := by
          rwa [flipsOf, Piece.isQuote, Bool.and_false, Bool.xor_false] at hflip
        rw [hflipped] at hs
        obtain ⟨⟨behind, hbehind⟩, hkept⟩ := hs.seen hstarts'
        obtain ⟨rfl, -⟩ := List.cons.inj hbehind
        exact ⟨[], literalBytes pieces, rfl, by simpa [Piece.bytes, Piece.last] using hkept⟩
      | escaped c =>
        have hslash : startsComment
            (chBackslash :: c :: (literalBytes pieces ++ chQuote :: r)) = false := by
          simp [startsComment, chBackslash, chSlash]
        obtain ⟨s', hloop, hs'⟩ := hs.pass (.inr hslash)
        have hc : c = chSlash := by
          obtain ⟨behind, hbehind⟩ : ∃ behind, Piece.last (.escaped c) ::
              (literalBytes pieces ++ chQuote :: r) = chSlash :: behind := by
            cases hrest : literalBytes pieces ++ chQuote :: r with
            | nil => simp at hrest
            | cons d text =>
              rw [hrest] at hstarts'
              simp only [startsComment, Bool.and_eq_true, decide_eq_true_eq] at hstarts'
              exact ⟨_, by rw [hstarts'.1]⟩
          exact (List.cons.inj hbehind).1
        have hflipped : flipped = true := by
          rwa [flipsOf, Piece.isQuote, hc, show decide (chSlash = chQuote) = false from rfl,
            Bool.and_false, Bool.xor_false] at hflip
        rw [turnedBy_of_ne (by decide), hflipped] at hs'
        obtain ⟨-, hkept⟩ := hs'.seen hstarts'
        refine ⟨[chBackslash], literalBytes pieces, by rw [hc]; rfl, ?_⟩
        rw [Piece.bytes, List.cons_append, List.cons_append, List.nil_append, hloop]
        exact hkept

end Bettergram.Base.Parse.Strip
