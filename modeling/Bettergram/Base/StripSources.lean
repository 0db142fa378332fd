import Bettergram.Base.StripStrings

/-! # What the stripper makes of a source

A source comes out right as long as the stripper has not lost count of the quotes
where it matters. It reads in front of its input only for one beginning of it.
-/

namespace Bettergram.Base.Parse

namespace Strip

variable {s : Strip} {before out : List UInt8} {flipped : Bool} {last : LastComment}

/-- The segments are stripped as wanted, behind what is there. -/
def RightFrom (out : List UInt8) (segments : List Segment) (last : LastComment)
    (result : List UInt8) : Prop :=
  result = out ++ segments.flatMap Segment.stripped ∨
    (last.isSome = true ∧ result = out ++ segments.flatMap Segment.stripped ++ [chSpace])

theorem RightFrom.extends {segments : List Segment} {result : List UInt8}
    (h : RightFrom out segments last result) :
    ∃ t, result = out ++ segments.flatMap Segment.stripped ++ t := by
  obtain rfl | ⟨-, rfl⟩ := h
  · exact ⟨[], (List.append_nil _).symm⟩
  · exact ⟨_, rfl⟩

theorem rightFrom_cons (segment : Segment) (segments : List Segment) (result : List UInt8) :
    RightFrom out (segment :: segments) last result ↔
      RightFrom (out ++ segment.stripped) segments last result := by
  simp [RightFrom]

theorem segmentsBytes_cons (segment : Segment) (segments : List Segment) :
    segmentsBytes (segment :: segments) = segment.bytes ++ segmentsBytes segments :=
  List.flatMap_cons

/-- In a string that is none the beginning of a comment is kept. -/
theorem Outside.slash (hs : s.Outside before out true) (r : List UInt8) :
    ∃ t, (s.loop (chSlash :: r)).kept = out ++ chSlash :: t := by
  have hturned : turnedBy before true chSlash = true := turnedBy_of_ne (by decide)
  obtain ⟨s', hloop, hs'⟩ := hs.pass (r := r) (.inl hturned)
  obtain ⟨t, ht⟩ := kept_loop s' r
  refine ⟨t, ?_⟩
  rw [hloop, ht, kept, if_pos hs'.comment, hs'.output, List.append_assoc]
  rfl

theorem not_rightFrom_of_slash {segment : Segment} {segments : List Segment}
    {result t stripped : List UInt8} (hresult : result = out ++ chSlash :: t)
    (hstripped : segment.stripped = chSpace :: stripped) :
    ¬RightFrom out (segment :: segments) last result := by
  intro h
  obtain ⟨t', ht'⟩ := h.extends
  rw [hresult, List.flatMap_cons, hstripped, List.append_assoc] at ht'
  have hhead := (List.cons.inj (List.append_cancel_left ht')).1
  exact absurd hhead (by decide)

theorem startsComment_of_quote (r : List UInt8) : startsComment (chQuote :: r) = false := by
  cases r <;> simp [startsComment, chQuote, chSlash]

theorem blankLines_head (text : List UInt8) : ∃ t, blankLines true text = chSpace :: t := by
  induction text with
  | nil => exact ⟨[], rfl⟩
  | cons c text ih =>
    rw [blankLines]
    split
    · exact ⟨_, rfl⟩
    · exact ih

/-- A segment that is taken for what it is. -/
theorem Outside.segment {segment : Segment} (hs : s.Outside before out flipped)
    (hbefore : Follows before false) (hseen : segment.Seen flipped) {r : List UInt8}
    (hjoins : segment.joins r = false) :
    ∃ (s' : Strip) (before' : List UInt8), s.loop (segment.bytes ++ r) = s'.loop r ∧
      s'.Outside before' (out ++ segment.stripped) (segment.flips flipped) ∧
      Follows before' false := by
  cases segment with
  | other c hc =>
    obtain ⟨s', hloop, hs'⟩ := hs.pass (.inr hjoins)
    rw [turnedBy_of_ne hc.1] at hs'
    exact ⟨s', _, hloop, hs', follows_of_ne hc.2 before⟩
  | line text crlf htext =>
    obtain rfl : flipped = false := hseen
    obtain ⟨s', hloop, hresult, hstring, hpending, hpassed, hcomment⟩ := hs.start
      (r := text ++ (lineEnd crlf ++ r)) (.inl rfl)
    have hs' : s'.Inside .singleLine (chSlash :: chSlash :: before) out [chSlash, chSlash] :=
      ⟨hcomment, hstring, hpassed, hresult, hpending⟩
    obtain ⟨s'', hloop', hs''⟩ := hs'.line (r := r) (by simp) htext.1 crlf htext.2
    refine ⟨s'', _, ?_, hs'', ?_⟩
    · rw [Segment.bytes, List.cons_append, List.cons_append, List.append_assoc, hloop, hloop']
    · cases crlf <;> exact follows_of_ne (by decide) _
  | block text htext =>
    obtain rfl : flipped = false := hseen
    obtain ⟨s', hloop, hresult, hstring, hpending, hpassed, hcomment⟩ := hs.start
      (r := text ++ (chAsterisk :: chSlash :: r)) (.inr rfl)
    have hs' : s'.Inside .multiLine (chAsterisk :: chSlash :: before) out [chSlash, chAsterisk] :=
      ⟨hcomment, hstring, hpassed, hresult, hpending⟩
    obtain ⟨s'', hloop', hs''⟩ := hs'.block (r := r) htext
    refine ⟨s'', _, ?_, hs'', follows_of_ne (by decide) _⟩
    rw [Segment.bytes, List.cons_append, List.cons_append, List.append_assoc, List.cons_append,
      List.cons_append, List.nil_append, hloop, hloop']
  | literal pieces =>
    have hquote : turnedBy before flipped chQuote = !flipped := by
      rw [turnedBy, if_pos ⟨rfl, hbefore.escapedBy⟩]
    obtain ⟨s', hloop, hs'⟩ := hs.pass (.inr (startsComment_of_quote
      (literalBytes pieces ++ chQuote :: r)))
    rw [hquote] at hs'
    obtain ⟨s'', doubled, hloop', hs'', hfollows⟩ := hs'.pieces (r := r)
      (follows_of_ne (c := chQuote) (by decide) before) hseen
    obtain ⟨t, hloop'', ht⟩ := hs''.pass (.inr (startsComment_of_quote r))
    rw [turnedBy, if_pos ⟨rfl, hfollows.escapedBy⟩, Bool.not_not] at ht
    refine ⟨t, chQuote :: ((literalBytes pieces).reverse ++ chQuote :: before), ?_, ?_,
      follows_of_ne (by decide) _⟩
    · rw [Segment.bytes, List.cons_append, List.append_assoc, List.cons_append, List.nil_append,
        hloop, hloop', hloop'']
    · simpa [Segment.stripped, Segment.bytes, Segment.flips] using ht

/-- A segment that is taken for something else cannot come out right. -/
theorem Outside.segment_missed {segment : Segment} (hs : s.Outside before out flipped)
    (hbefore : Follows before false) (hseen : ¬segment.Seen flipped) (segments : List Segment)
    (r : List UInt8) :
    ¬RightFrom out (segment :: segments) last (s.loop (segment.bytes ++ r)).kept := by
  cases segment with
  | other c hc => exact absurd trivial hseen
  | line text crlf htext =>
    obtain rfl : flipped = true := (Bool.not_eq_false _).mp hseen
    obtain ⟨t, ht⟩ := hs.slash (chSlash :: (text ++ lineEnd crlf) ++ r)
    exact not_rightFrom_of_slash ht rfl
  | block text htext =>
    obtain rfl : flipped = true := (Bool.not_eq_false _).mp hseen
    obtain ⟨t, ht⟩ := hs.slash (chAsterisk :: (text ++ [chAsterisk, chSlash]) ++ r)
    obtain ⟨stripped, hstripped⟩ := blankLines_head text
    exact not_rightFrom_of_slash ht hstripped
  | literal pieces =>
    have hquote : turnedBy before flipped chQuote = !flipped := by
      rw [turnedBy, if_pos ⟨rfl, hbefore.escapedBy⟩]
    obtain ⟨s', hloop, hs'⟩ := hs.pass (.inr (startsComment_of_quote
      (literalBytes pieces ++ chQuote :: r)))
    rw [hquote] at hs'
    obtain ⟨part, behind, hpart, hkept⟩ := hs'.stray (r := r)
      (follows_of_ne (c := chQuote) (by decide) before) hseen
    have hbytes : (Segment.literal pieces).bytes ++ r =
        chQuote :: (literalBytes pieces ++ chQuote :: r) := by simp [Segment.bytes]
    intro h
    obtain ⟨t, ht⟩ := h.extends
    have hright : out ++ (Segment.literal pieces :: segments).flatMap Segment.stripped ++ t =
        out ++ [chQuote] ++ part ++ chSlash ::
          (behind ++ [chQuote] ++ segments.flatMap Segment.stripped ++ t) := by
      simp [Segment.stripped, Segment.bytes, hpart]
    rw [hbytes, hloop, hright] at ht
    obtain hkept | ⟨t', hkept⟩ := hkept
    · rw [hkept] at ht
      simp at ht
    · rw [hkept] at ht
      exact absurd (List.cons.inj (List.append_cancel_left ht)).1 (by decide)

/-- A comment at the very end that is taken for one. -/
theorem Outside.lastComment (hs : s.Outside before out flipped) (h : flipped = true → last = none) :
    (s.loop (lastBytes last)).kept = out ∧
      (s.loop (lastBytes last)).insideComment ≠ .multiLine := by
  cases last with
  | none =>
    rw [lastBytes, loop, kept, if_pos hs.comment, hs.output, hs.comment]
    exact ⟨rfl, by decide⟩
  | some text =>
    obtain rfl : flipped = false := by
      by_contra hflipped
      exact absurd (h ((Bool.not_eq_false _).mp hflipped)) (by simp)
    obtain ⟨s', hloop, hresult, hstring, hpending, hpassed, hcomment⟩ :=
      hs.start (r := text.val) (.inl rfl)
    have hs' : s'.Inside .singleLine (chSlash :: chSlash :: before) out [chSlash, chSlash] :=
      ⟨hcomment, hstring, hpassed, hresult, hpending⟩
    rw [lastBytes, hloop]
    exact hs'.last text.property

/-- The stripper is right about the segments that are left, and sees the end of every block comment,
when the number of quotes that it takes for others is even where it matters. -/
theorem Outside.segments {segments : List Segment} (hs : s.Outside before out flipped)
    (hbefore : Follows before false) (hapart : Apart (lastBytes last) segments)
    (heven : EvenQuotes last flipped segments) :
    (s.loop (segmentsBytes segments ++ lastBytes last)).kept =
      out ++ segments.flatMap Segment.stripped ∧
    (s.loop (segmentsBytes segments ++ lastBytes last)).insideComment ≠ .multiLine := by
  induction segments generalizing s before out flipped with
  | nil =>
    rw [segmentsBytes, List.flatMap_nil, List.nil_append, List.flatMap_nil, List.append_nil]
    exact hs.lastComment heven
  | cons segment segments ih =>
    obtain ⟨s', before', hloop, hs', hbefore'⟩ := hs.segment hbefore heven.1 hapart.1
    rw [segmentsBytes_cons, List.append_assoc, hloop, List.flatMap_cons, ← List.append_assoc]
    exact ih hs' hbefore' hapart.2 heven.2

theorem Outside.even_of_right {segments : List Segment} (hs : s.Outside before out flipped)
    (hbefore : Follows before false) (hapart : Apart (lastBytes last) segments)
    (hright : RightFrom out segments last
      (s.loop (segmentsBytes segments ++ lastBytes last)).kept) : EvenQuotes last flipped segments := by
  induction segments generalizing s before out flipped with
  | nil =>
    rintro rfl
    cases last with
    | none => rfl
    | some text =>
      obtain ⟨t, ht⟩ := hs.slash (chSlash :: text.val)
      rw [segmentsBytes, List.flatMap_nil, List.nil_append, lastBytes, ht] at hright
      simp [RightFrom, chSlash, chSpace] at hright
  | cons segment segments ih =>
    rw [segmentsBytes_cons, List.append_assoc] at hright
    have hseen : segment.Seen flipped := by
      by_contra hseen
      exact hs.segment_missed hbefore hseen segments _ hright
    obtain ⟨s', before', hloop, hs', hbefore'⟩ := hs.segment hbefore hseen hapart.1
    rw [hloop, rightFrom_cons] at hright
    exact ⟨hseen, ih hs' hbefore' hapart.2 hright⟩

/-! ## The whole of the content -/

/-- Nothing was dropped before the first comment, and a line comment has its two characters. -/
structure Whole (s : Strip) : Prop where
  outside : s.insideComment = .none → s.result = [] → s.pending = s.before.reverse
  line : s.insideComment = .singleLine → s.pending ≠ []

theorem Whole.pass (hs : s.Whole) (c : UInt8) : (s.pass c).Whole where
  outside hcomment hresult := by
    rw [Strip.pass, List.reverse_cons, hs.outside hcomment hresult]
  line _ := by simp [Strip.pass]

theorem Whole.round (hs : s.Whole) (c d : UInt8) : (s.round c d).1.Whole := by
  have hquoted : (s.quoted c).Whole := ⟨hs.outside, hs.line⟩
  rw [Strip.round]
  generalize s.quoted c = s at hquoted ⊢
  dsimp only
  split_ifs with h1 h2 h3 h4 h5 h6 h7 h8
  · exact hquoted.pass c
  · exact ⟨fun h => by simp [Strip.pass] at h, fun _ => by simp [Strip.pass]⟩
  · refine ⟨fun _ h => ?_, fun h => by simp [Strip.pass] at h⟩
    simp [feedComment_eq, Strip.pass, spaceFor, hquoted.line h3.1] at h
  · refine ⟨fun _ h => ?_, fun h => by simp [Strip.pass] at h⟩
    simp [feedComment_eq, Strip.pass, spaceFor, hquoted.line h4.1] at h
  · exact ⟨fun h => by simp [Strip.pass] at h, fun h => by simp [Strip.pass] at h⟩
  · refine ⟨fun _ h => ?_, fun h => by simp at h⟩
    simp [feedComment_eq, Strip.pass, spaceFor] at h
  · refine ⟨fun h => ?_, fun h => ?_⟩
    · simp [feedComment_eq, feedContent, Strip.pass, h7.1] at h
    · simp [feedComment_eq, feedContent, Strip.pass, h7.1] at h
  · refine ⟨fun h => ?_, fun h => ?_⟩
    · simp [feedComment_eq, feedContent, Strip.pass, h8.1] at h
    · simp [feedComment_eq, feedContent, Strip.pass, h8.1] at h
  · exact hquoted.pass c

/-- A round passes one character or two. -/
theorem round_before (s : Strip) (c d : UInt8) :
    (s.round c d).1.before =
      if (s.round c d).2 = true then d :: c :: s.before else c :: s.before := by
  have hquoted : (s.quoted c).before = s.before := rfl
  rw [Strip.round, ← hquoted]
  generalize s.quoted c = s
  dsimp only
  split_ifs <;> first | rfl | simp_all

/-- Only a second character that is there is passed with the first one. -/
theorem round_zero (s : Strip) (c : UInt8) : (s.round c 0).2 = false := by
  have hslash : (0 : UInt8) ≠ chSlash := by decide
  have hasterisk : (0 : UInt8) ≠ chAsterisk := by decide
  have hnewline : (0 : UInt8) ≠ chNewline := by decide
  rw [Strip.round]
  generalize s.quoted c = s
  simp only [hslash, hasterisk, hnewline, and_false, if_false]
  split_ifs <;> rfl

theorem Whole.loop (hs : s.Whole) (text : List UInt8) :
    (s.loop text).Whole ∧ (s.loop text).before = text.reverse ++ s.before := by
  fun_induction Strip.loop s text with
  | case1 s => exact ⟨hs, rfl⟩
  | case2 s c =>
    refine ⟨hs.round c 0, ?_⟩
    rw [round_before, round_zero, if_neg (by decide)]
    rfl
  | case3 s c d r htwo ih =>
    obtain ⟨hwhole, hbefore⟩ := ih (hs.round c d)
    refine ⟨hwhole, ?_⟩
    rw [hbefore, round_before, if_pos htwo]
    simp
  | case4 s c d r hone ih =>
    obtain ⟨hwhole, hbefore⟩ := ih (hs.round c d)
    refine ⟨hwhole, ?_⟩
    rw [hbefore, round_before, if_neg hone]
    simp

theorem whole_plain : (plain [] false).Whole := ⟨fun _ _ => rfl, fun h => by simp [plain] at h⟩

theorem Whole.finish {content : List UInt8} (hs : s.Whole) (hcontent : s.before.reverse = content) :
    s.finish content = s.kept := by
  rw [Strip.finish, kept]
  by_cases hcomment : s.insideComment = .none
  · rw [if_pos hcomment]
    split_ifs with hpending hresult
    · rw [hresult, hs.outside hcomment hresult, hcontent, List.nil_append]
    · rfl
    · rw [not_not.mp fun h => hpending ⟨hcomment, h⟩, List.append_nil]
  · rw [if_neg hcomment, if_neg fun h => hcomment h.1]

/-! ## Reading in front of the input -/

/-- The test of a quote looks at the character before the first one. -/
def strays (s : Strip) (c : UInt8) : Bool :=
  s.insideComment = .none && c = chQuote && s.before = [chBackslash]

/-- Whether one of the rounds does. -/
def loopStrays : Strip → List UInt8 → Bool
  | _, [] => false
  | s, [c] => s.strays c
  | s, c :: d :: r =>
    s.strays c || if (s.round c d).2 then loopStrays (s.round c d).1 r
      else loopStrays (s.round c d).1 (d :: r)

theorem loopStrays_of_length (hs : 2 ≤ s.before.length) (text : List UInt8) :
    s.loopStrays text = false := by
  have hno : ∀ (s : Strip) (c : UInt8), 2 ≤ s.before.length → s.strays c = false := by
    intro s c hs
    have hne : s.before ≠ [chBackslash] := by
      intro h
      simp [h] at hs
    simp [strays, hne]
  have hround : ∀ (s : Strip) (c d : UInt8), 2 ≤ s.before.length →
      2 ≤ (s.round c d).1.before.length := by
    intro s c d hs
    rw [round_before]
    split <;> simp only [List.length_cons] <;> omega
  fun_induction loopStrays s text with
  | case1 => rfl
  | case2 s c => exact hno s c hs
  | case3 s c d r htwo hone =>
    rw [hno s c hs, htwo (hround s c d hs), hone (hround s c d hs)]
    simp

theorem loopStrays_plain_iff (content : List UInt8) :
    (plain [] false).loopStrays content = true ↔ [chBackslash, chQuote] <+: content := by
  have hfirst : ∀ c, (plain [] false).strays c = false := fun c => by simp [strays, plain]
  cases content with
  | nil => simp [loopStrays]
  | cons c content =>
    cases content with
    | nil => simp [loopStrays, hfirst]
    | cons d r =>
      rw [loopStrays, hfirst, Bool.false_or, List.cons_prefix_cons, List.cons_prefix_cons]
      by_cases hc : c = chBackslash
      · have hround : (plain [] false).round c d = (plain [c] false, false) := by
          rw [plain_round (.inr (by simp [hc, chBackslash, chSlash]))]
          simp [turned, quoted, plain, hc, chBackslash, chQuote]
        have hrest : ∀ r, (plain [c] false).loopStrays (d :: r) = decide (d = chQuote) := by
          intro r
          have hstrays : (plain [c] false).strays d = decide (d = chQuote) := by
            simp [strays, plain, hc]
          cases r with
          | nil => exact hstrays
          | cons e r =>
            have hbefore := round_before (plain [c] false) d e
            have hlength : 2 ≤ ((plain [c] false).round d e).1.before.length := by
              rw [hbefore]
              split <;> simp [plain]
            rw [loopStrays, hstrays, loopStrays_of_length hlength, loopStrays_of_length hlength]
            simp
        rw [hround, hrest]
        simp [hc, eq_comm]
      · refine iff_of_false ?_ fun h => hc h.1.symm
        have hbefore := round_before (plain [] false) c d
        cases htwo : ((plain [] false).round c d).2 with
        | true =>
          rw [htwo, if_pos rfl] at hbefore
          rw [if_pos rfl, loopStrays_of_length (by simp [hbefore])]
          simp
        | false =>
          rw [htwo, if_neg (by decide)] at hbefore
          have hstrays : ((plain [] false).round c d).1.strays d = false := by
            rw [strays, hbefore]
            simp [plain, hc]
          rw [if_neg (by decide)]
          cases r with
          | nil => rw [loopStrays, hstrays]; decide
          | cons e r =>
            have hlength : 2 ≤ (((plain [] false).round c d).1.round d e).1.before.length := by
              rw [round_before, hbefore]
              split <;> simp [plain]
            rw [loopStrays, hstrays, loopStrays_of_length hlength, loopStrays_of_length hlength]
            simp

end Strip

theorem stripComments_eq (content : List UInt8) :
    stripComments content = ((Strip.plain [] false).loop content).kept := by
  obtain ⟨hwhole, hbefore⟩ := Strip.whole_plain.loop content
  refine hwhole.finish ?_
  rw [hbefore, List.reverse_append, List.reverse_reverse]
  rfl

theorem outside_plain : (Strip.plain [] false).Outside [] [] false :=
  ⟨rfl, rfl, rfl, rfl, fun _ => rfl⟩

theorem stripComments_right_iff (source : Source) :
    source.Right (stripComments source.bytes) ↔ EvenQuotes source.last false source.segments := by
  have hfollows : Strip.Follows [] false := by simp [Strip.Follows]
  rw [stripComments_eq]
  refine ⟨fun h => outside_plain.even_of_right hfollows source.apart h, fun heven => .inl ?_⟩
  exact (outside_plain.segments hfollows source.apart heven).1

end Bettergram.Base.Parse
