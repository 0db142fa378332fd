import Bettergram.Storage.SparseIdsList

/-! # What the slices know

In every state a slice holds exactly the known ids of its range, and every known
id lies in a slice. Adding, removing and cutting the bottom keep this.
-/

namespace Bettergram.Storage
open Foundation

namespace SparseIdsList

variable {before after : List Slice}

/-- The slices hold exactly the known ids of their ranges, and every known id is in one. -/
structure Knows (ids : Finset MsgId) (slices : List Slice) : Prop extends Ordered slices where
  exact : ∀ s ∈ slices, ∀ id, id ∈ s.messages ↔ id ∈ s.range ∧ id ∈ ids
  all : ∀ id ∈ ids, ∃ s ∈ slices, id ∈ s.messages

variable {ids : Finset MsgId} {slices : List Slice}

/-- One slice in place of some others, between those before and after it. -/
theorem Ordered.replace {united : List Slice} {s : Slice}
    (h : Ordered (before ++ united ++ after)) (hvalid : s.range.fromId ≤ s.range.till)
    (hbefore : ∀ b ∈ before, b.range.till < s.range.fromId)
    (hafter : ∀ a ∈ after, s.range.till < a.range.fromId) : Ordered (before ++ s :: after) := by
  have hapart := h.apart
  rw [List.append_assoc, List.pairwise_append, List.pairwise_append] at hapart
  obtain ⟨hfirst, ⟨-, hlast, -⟩, hacross⟩ := hapart
  constructor
  · rw [List.pairwise_append, List.pairwise_cons]
    refine ⟨hfirst, ⟨hafter, hlast⟩, fun b hb c hc => ?_⟩
    rcases List.mem_cons.mp hc with rfl | hc
    · exact hbefore b hb
    · exact hacross b hb c (by simp [hc])
  · intro c hc
    rcases List.mem_append.mp hc with hc | hc
    · exact h.valid c (by simp [hc])
    · rcases List.mem_cons.mp hc with rfl | hc
      · exact hvalid
      · exact h.valid c (by simp [hc])

theorem addRange_knows {l : SparseIdsList} (h : Knows ids l.slices) (messages : List MsgId)
    {noSkipRange : MsgRange} (hrange : noSkipRange.fromId ≤ noSkipRange.till)
    (hinside : ∀ id ∈ messages, id ∈ noSkipRange) (count : Option ℤ) (incrementCount : Bool)
    (hcount : ¬(count.isSome = true ∧ incrementCount = true)) :
    ∃ update l', l.addRange messages noSkipRange count incrementCount = some (update, l') ∧
      Knows (ids ∪ messages.toFinset) l'.slices := by
  obtain ⟨before, united, after, s, result, hslices, hbefore, hafter, -, hadd, hmerged, -⟩ :=
    addRangeItemsAndCountNew_spec messages h.toOrdered hrange
  unfold addRange
  rw [if_neg hcount, hadd]
  refine ⟨_, _, rfl, ?_⟩
  have hordered := h.toOrdered
  rw [hslices] at hordered
  have hapart := hordered.apart
  rw [List.append_assoc, List.pairwise_append, List.pairwise_append] at hapart
  obtain ⟨-, ⟨-, -, hunitedAfter⟩, hacross⟩ := hapart
  have hfrom : s.range.fromId ≤ noSkipRange.fromId :=
    not_lt.mp fun hlt => lt_irrefl _ ((hmerged.fromId _).mp hlt).1
  have htill : noSkipRange.till ≤ s.range.till :=
    not_lt.mp fun hlt => lt_irrefl _ ((hmerged.till _).mp hlt).1
  have hbeforeS : ∀ b ∈ before, b.range.till < s.range.fromId := fun b hb =>
    (hmerged.fromId _).mpr ⟨hbefore b hb, fun u hu => hacross b hb u (by simp [hu])⟩
  have hafterS : ∀ a ∈ after, s.range.till < a.range.fromId := fun a ha =>
    (hmerged.till _).mpr ⟨hafter a ha, fun u hu => hunitedAfter u hu a ha⟩
  have hnew : ∀ id ∈ messages, id ∈ s.range := fun id hid =>
    ⟨hfrom.trans (hinside id hid).1, (hinside id hid).2.trans htill⟩
  have hold : ∀ u ∈ united, ∀ id ∈ u.messages, id ∈ s.range ∧ id ∈ ids := by
    intro u hu id hid
    obtain ⟨hin, hids⟩ := (h.exact u (by rw [hslices]; simp [hu]) id).mp hid
    refine ⟨⟨?_, ?_⟩, hids⟩
    · exact (not_lt.mp fun hlt => lt_irrefl _ (((hmerged.fromId _).mp hlt).2 u hu)).trans hin.1
    · exact hin.2.trans (not_lt.mp fun hlt => lt_irrefl _ (((hmerged.till _).mp hlt).2 u hu))
  -- a slice that was not united keeps away from the new range
  have hother : ∀ c, c ∈ before ∨ c ∈ after → ∀ id ∈ c.range, id ∉ s.range := by
    rintro c (hc | hc) id hid hs
    · exact absurd (hid.2.trans_lt (hbeforeS c hc)) (not_lt.mpr hs.1)
    · exact absurd (hs.2.trans_lt (hafterS c hc)) (not_lt.mpr hid.1)
  have hexact : ∀ id, id ∈ s.messages ↔ id ∈ s.range ∧ id ∈ ids ∪ messages.toFinset := by
    intro id
    rw [hmerged.messages, Finset.mem_union, List.mem_toFinset]
    constructor
    · rintro (hid | ⟨u, hu, hid⟩)
      · exact ⟨hnew id hid, .inr hid⟩
      · exact ⟨(hold u hu id hid).1, .inl (hold u hu id hid).2⟩
    · rintro ⟨hs, hid | hid⟩
      · obtain ⟨t, ht, hidt⟩ := h.all id hid
        have hrange := ((h.exact t ht id).mp hidt).1
        rw [hslices, List.append_assoc, List.mem_append, List.mem_append] at ht
        rcases ht with ht | ht | ht
        · exact absurd hs (hother t (.inl ht) id hrange)
        · exact .inr ⟨t, ht, hidt⟩
        · exact absurd hs (hother t (.inr ht) id hrange)
      · exact .inl hid
  have hkeep : ∀ c, c ∈ before ∨ c ∈ after → ∀ id,
      id ∈ c.messages ↔ id ∈ c.range ∧ id ∈ ids ∪ messages.toFinset := by
    intro c hc id
    have hmem : c ∈ l.slices := by
      rw [hslices]
      rcases hc with hc | hc <;> simp [hc]
    rw [h.exact c hmem id, Finset.mem_union, List.mem_toFinset]
    refine and_congr_right fun hid => ⟨.inl, fun hin => hin.resolve_right fun hmsg => ?_⟩
    exact hother c hc id hid (hnew id hmsg)
  refine ⟨hordered.replace (hfrom.trans (hrange.trans htill)) hbeforeS hafterS, ?_, ?_⟩
  · intro c hc
    rcases List.mem_append.mp hc with hc | hc
    · exact hkeep c (.inl hc)
    · rcases List.mem_cons.mp hc with rfl | hc
      · exact hexact
      · exact hkeep c (.inr hc)
  · intro id hid
    by_cases hs : id ∈ s.range
    · exact ⟨s, by simp, (hexact id).mpr ⟨hs, hid⟩⟩
    · have hids : id ∈ ids := by
        rw [Finset.mem_union, List.mem_toFinset] at hid
        exact hid.resolve_right fun hmsg => hs (hnew id hmsg)
      obtain ⟨t, ht, hidt⟩ := h.all id hids
      refine ⟨t, ?_, hidt⟩
      rw [hslices, List.append_assoc, List.mem_append, List.mem_append] at ht
      rcases ht with ht | ht | ht
      · simp [ht]
      · exact absurd (hold t ht id hidt).1 hs
      · simp [ht]

/-- Another slice with the same beginning, in the place of one. -/
theorem modify_slice {s t : Slice} {action : Slice → Option Slice}
    (h : Ordered (before ++ s :: after)) (haction : action s = some t)
    (hfrom : t.range.fromId = s.range.fromId) :
    modify Slice.lt before.length action (before ++ s :: after) = some (before ++ t :: after) := by
  have hlt := h.lt
  rw [List.pairwise_append, List.pairwise_cons] at hlt
  obtain ⟨-, ⟨hrest, -⟩, hacross⟩ := hlt
  apply modify_append Slice.lt_asymm haction
  · intro b hb
    exact (hacross b hb s (by simp)).trans_eq hfrom.symm
  · intro a ha
    exact hfrom.trans_lt (hrest a ha)

/-- A slice without a message. -/
def eraseFrom (messageId : MsgId) (s : Slice) : Slice :=
  { s with messages := s.messages.erase messageId }

theorem map_eraseFrom_of_not_mem {messageId : MsgId}
    (h : ∀ s ∈ slices, messageId ∉ s.messages) : slices.map (eraseFrom messageId) = slices := by
  refine (List.map_congr_left fun s hs => ?_).trans (List.map_id slices)
  rw [eraseFrom, Finset.erase_eq_of_notMem (h s hs)]
  rfl

/-- Only the slice with the id in its range is changed, and no other has it. -/
theorem removeOne_eq {l : SparseIdsList} (h : Knows ids l.slices) (messageId : MsgId) :
    l.removeOne messageId =
      some ⟨l.count.map (· - 1), l.slices.map (eraseFrom messageId)⟩ := by
  set p : Slice → Bool := fun s => s.range.till < messageId with hp
  set before := l.slices.takeWhile p with hbefore
  have hbeforeTill : ∀ b ∈ before, b.range.till < messageId := by
    intro b hb
    simpa [hp] using List.mem_takeWhile_imp hb
  have hsplit : l.slices = before ++ l.slices.dropWhile p := by
    rw [hbefore, List.takeWhile_append_dropWhile]
  have hplace : lowerBound p l.slices = before.length := rfl
  have hlost : l.slices.Pairwise fun a b => p b → p a := by
    refine h.apart.imp_of_mem fun {a b} _ hb hab hpb => ?_
    have hpb' : b.range.till < messageId := by simpa [hp] using hpb
    simp only [hp, decide_eq_true_eq]
    exact hab.trans ((h.valid b hb).trans_lt hpb')
  have hrest := not_of_mem_dropWhile hlost
  have hout : ∀ s ∈ l.slices, messageId ∉ s.range → messageId ∉ s.messages :=
    fun s hs hnot hmem => hnot ((h.exact s hs messageId).mp hmem).1
  have hbeforeOut : ∀ b ∈ before, messageId ∉ b.range := fun b hb hin =>
    absurd (hbeforeTill b hb) (not_lt.mpr hin.2)
  unfold removeOne
  rw [hplace]
  cases hcase : l.slices.dropWhile p with
  | nil =>
    rw [hcase, List.append_nil] at hsplit
    have hat : l.slices[before.length]? = none := by
      rw [hsplit]
      simp
    rw [map_eraseFrom_of_not_mem fun s hs => hout s hs (hbeforeOut s (hsplit ▸ hs))]
    simp only [hat, Option.map_some]
  | cons s after =>
    rw [hcase] at hsplit hrest
    have hat : l.slices[before.length]? = some s := by
      rw [hsplit]
      simp
    have hstill : messageId ≤ s.range.till := by
      have hs := hrest s (by simp)
      simpa [hp] using hs
    have hordered := h.toOrdered
    rw [hsplit] at hordered
    have hapart := hordered.apart
    rw [List.pairwise_append, List.pairwise_cons] at hapart
    obtain ⟨-, ⟨hsafter, -⟩, -⟩ := hapart
    have hafterOut : ∀ c ∈ after, messageId ∉ c.range := fun c hc hin =>
      absurd (hstill.trans_lt (hsafter c hc)) (not_lt.mpr hin.1)
    by_cases hfrom : s.range.fromId ≤ messageId
    · have hmodify : modify Slice.lt before.length
          (fun s => some { s with messages := s.messages.erase messageId }) l.slices =
            some (before ++ eraseFrom messageId s :: after) := by
        rw [hsplit]
        exact modify_slice hordered rfl rfl
      have hbeforeSame := map_eraseFrom_of_not_mem fun b hb =>
        hout b (by rw [hsplit]; simp [hb]) (hbeforeOut b hb)
      have hafterSame := map_eraseFrom_of_not_mem fun c hc =>
        hout c (by rw [hsplit]; simp [hc]) (hafterOut c hc)
      have hmap : l.slices.map (eraseFrom messageId) =
          before ++ eraseFrom messageId s :: after := by
        rw [hsplit, List.map_append, List.map_cons, hbeforeSame, hafterSame]
      simp only [hat, if_pos hfrom, hmodify, hmap, Option.map_some]
    · have hnone : ∀ c ∈ l.slices, messageId ∉ c.range := by
        intro c hc
        rw [hsplit, List.mem_append, List.mem_cons] at hc
        rcases hc with hc | rfl | hc
        · exact hbeforeOut c hc
        · exact fun hin => hfrom hin.1
        · exact hafterOut c hc
      rw [map_eraseFrom_of_not_mem fun c hc => hout c hc (hnone c hc)]
      simp only [hat, if_neg hfrom, Option.map_some]

theorem removeOne_knows {l : SparseIdsList} (h : Knows ids l.slices) (messageId : MsgId) :
    ∃ l', l.removeOne messageId = some l' ∧ Knows (ids.erase messageId) l'.slices := by
  refine ⟨_, removeOne_eq h messageId, ⟨⟨List.pairwise_map.mpr h.apart, fun s hs => ?_⟩, ?_, ?_⟩⟩
  · obtain ⟨t, ht, rfl⟩ := List.mem_map.mp hs
    exact h.valid t ht
  · intro s hs id
    obtain ⟨t, ht, rfl⟩ := List.mem_map.mp hs
    rw [eraseFrom, Finset.mem_erase, Finset.mem_erase, h.exact t ht id]
    exact and_left_comm
  · intro id hid
    obtain ⟨hne, hids⟩ := Finset.mem_erase.mp hid
    obtain ⟨s, hs, hmem⟩ := h.all id hids
    exact ⟨eraseFrom messageId s, List.mem_map_of_mem hs, Finset.mem_erase.mpr ⟨hne, hmem⟩⟩

theorem removeAll_knows (l : SparseIdsList) : Knows ∅ l.removeAll.slices where
  apart := List.pairwise_singleton _ _
  valid s hs := by
    rw [removeAll, List.mem_singleton] at hs
    rw [hs]
    decide
  exact s hs id := by
    rw [removeAll, List.mem_singleton] at hs
    simp [hs]
  all id hid := by simp at hid

/-- The count is forgotten, and the last slice may be cut. -/
theorem invalidateBottom_eq {l : SparseIdsList} (h : Ordered l.slices) :
    ∃ slices, l.invalidateBottom = some ⟨none, slices⟩ ∧ (slices = l.slices ∨
      ∃ before last, l.slices = before ++ [last] ∧ slices = before ++ [cutTill last]) := by
  unfold invalidateBottom
  cases hlast : l.slices.getLast? with
  | none => exact ⟨_, rfl, .inl rfl⟩
  | some last =>
    by_cases htop : last.range.till = ServerMaxMsgId
    · obtain ⟨before, hslices⟩ := List.getLast?_eq_some_iff.mp hlast
      rw [hslices] at h
      have hlength : l.slices.length - 1 = before.length := by simp [hslices]
      have hmodify : modify Slice.lt (l.slices.length - 1) (fun s => some (cutTill s)) l.slices =
          some (before ++ [cutTill last]) := by
        rw [hlength, hslices]
        exact modify_slice h rfl rfl
      exact ⟨_, by simp only [if_pos htop, hmodify, Option.map_some],
        .inr ⟨before, last, hslices, rfl⟩⟩
    · exact ⟨_, by simp only [if_neg htop, Option.map_some], .inl rfl⟩

/-- A cut slice ends inside of what it was. -/
theorem cutTill_till {last : Slice} (hvalid : last.range.fromId ≤ last.range.till)
    (hinside : ∀ id ∈ last.messages, id ∈ last.range) :
    last.range.fromId ≤ (cutTill last).range.till ∧
      (cutTill last).range.till ≤ last.range.till := by
  simp only [cutTill]
  split
  · next hne => exact hinside _ (last.messages.max'_mem hne)
  · exact ⟨le_refl _, hvalid⟩

theorem invalidateBottom_knows {l : SparseIdsList} (h : Knows ids l.slices) :
    ∃ l', l.invalidateBottom = some l' ∧ Knows ids l'.slices := by
  obtain ⟨_, heq, rfl | ⟨before, last, hslices, rfl⟩⟩ := invalidateBottom_eq h.toOrdered
  · exact ⟨_, heq, h⟩
  have hordered := h.toOrdered
  rw [hslices] at hordered
  have hexact := h.exact last (by rw [hslices]; simp)
  obtain ⟨hvalid, htill⟩ := cutTill_till (hordered.valid last (by simp))
    fun id hid => ((hexact id).mp hid).1
  -- the messages stay inside the range
  have hcut : ∀ id, id ∈ last.messages ↔ id ∈ (cutTill last).range ∧ id ∈ ids := by
    intro id
    rw [hexact id]
    refine and_congr_left fun hids => ⟨fun hin => ⟨hin.1, ?_⟩, fun hin => ⟨hin.1, ?_⟩⟩
    · have hmem : id ∈ last.messages := (hexact id).mpr ⟨hin, hids⟩
      have hne : last.messages.Nonempty := ⟨id, hmem⟩
      simp only [cutTill]
      rw [dif_pos hne]
      exact last.messages.le_max' id hmem
    · exact hin.2.trans htill
  have hapart := hordered.apart
  rw [List.pairwise_append] at hapart
  have hparts : Ordered (before ++ [last] ++ []) := by simpa using hordered
  refine ⟨_, heq,
    hparts.replace hvalid (fun b hb => hapart.2.2 b hb last (by simp)) (by simp), ?_, ?_⟩
  · intro c hc
    rcases List.mem_append.mp hc with hc | hc
    · exact h.exact c (by rw [hslices]; simp [hc])
    · rw [List.mem_singleton.mp hc]
      exact hcut
  · intro id hid
    obtain ⟨c, hc, hmem⟩ := h.all id hid
    rw [hslices, List.mem_append, List.mem_singleton] at hc
    rcases hc with hc | rfl
    · exact ⟨c, by simp [hc], hmem⟩
    · exact ⟨cutTill c, by simp, hmem⟩

theorem perform_knows {l : SparseIdsList} (h : Knows ids l.slices) {op : Op} (hop : op.Valid) :
    ∃ l', l.perform op = some l' ∧ Knows (op.known ids) l'.slices := by
  have hnotBoth : ∀ count : Option ℤ, ¬(count.isSome = true ∧ false = true) := by simp
  cases op with
  | addNew messageId =>
    have hinside : ∀ id ∈ [messageId], id ∈ (⟨messageId, ServerMaxMsgId⟩ : MsgRange) := by
      simp only [List.mem_singleton, forall_eq, MsgRange.mem_iff]
      exact ⟨le_refl _, hop⟩
    obtain ⟨update, l', hadd, hknows⟩ := addRange_knows h [messageId]
      (show messageId ≤ ServerMaxMsgId from hop) hinside none true (by simp)
    exact ⟨l', by rw [perform, addNew, hadd]; rfl, by simpa [Op.known] using hknows⟩
  | addExisting messageId noSkipRange =>
    have hinside : messageId ∈ noSkipRange := hop
    obtain ⟨update, l', hadd, hknows⟩ := addRange_knows h [messageId]
      (hinside.1.trans hinside.2) (by simpa using hinside) none false (hnotBoth none)
    exact ⟨l', by rw [perform, addExisting, hadd]; rfl, by simpa [Op.known] using hknows⟩
  | addSlice messageIds noSkipRange count =>
    obtain ⟨update, l', hadd, hknows⟩ := addRange_knows h messageIds hop.1
      hop.2 count false (hnotBoth count)
    exact ⟨l', by rw [perform, addSlice, hadd]; rfl, hknows⟩
  | removeOne messageId => exact removeOne_knows h messageId
  | removeAll => exact ⟨_, rfl, removeAll_knows l⟩
  | invalidateBottom => exact invalidateBottom_knows h

theorem run_knows {l : SparseIdsList} (h : Knows ids l.slices) {ops : List Op}
    (hops : ∀ op ∈ ops, op.Valid) :
    ∃ l', l.run ops = some l' ∧ Knows (ops.foldl (fun ids op => op.known ids) ids) l'.slices := by
  induction ops generalizing l ids with
  | nil => exact ⟨l, rfl, h⟩
  | cons op ops ih =>
    obtain ⟨l₁, hperform, h₁⟩ := perform_knows h (hops op (by simp))
    obtain ⟨l₂, hrun, h₂⟩ := ih h₁ fun o ho => hops o (by simp [ho])
    exact ⟨l₂, by rw [run, hperform]; exact hrun, h₂⟩

/-- No expectation ever fails, the slices stay apart, and they hold exactly what was added to
their ranges and not removed since. -/
theorem run_slices {ops : List Op} (hops : ∀ op ∈ ops, op.Valid) :
    ∃ l, ({} : SparseIdsList).run ops = some l ∧
      l.slices.Pairwise (fun a b => a.range.till < b.range.fromId) ∧
      (∀ s ∈ l.slices, ∀ id ∈ s.messages, id ∈ s.range) ∧
      (∀ s ∈ l.slices, ∀ id, id ∈ s.messages ↔ id ∈ s.range ∧ id ∈ known ops) ∧
      ∀ id, (∃ s ∈ l.slices, id ∈ s.messages) ↔ id ∈ known ops := by
  have hempty : Knows ∅ ({} : SparseIdsList).slices :=
    ⟨⟨List.Pairwise.nil, by simp⟩, by simp, by simp⟩
  obtain ⟨l, hrun, h⟩ := run_knows hempty hops
  refine ⟨l, hrun, h.apart, fun s hs id hid => ((h.exact s hs id).mp hid).1, h.exact, fun id => ?_⟩
  exact ⟨fun ⟨s, hs, hid⟩ => ((h.exact s hs id).mp hid).2, h.all id⟩

/-- Two slices that meet in a new one, and a cut at the bottom. -/
theorem run_slices_united :
    let ops : List Op := [.addSlice [1, 3] ⟨1, 5⟩ none, .addSlice [8] ⟨7, 9⟩ (some 4),
      .addExisting 6 ⟨5, 7⟩, .addNew 20, .removeOne 3, .invalidateBottom]
    ∃ l, ({} : SparseIdsList).run ops = some l ∧
      l.slices.Pairwise (fun a b => a.range.till < b.range.fromId) ∧
      (∀ s ∈ l.slices, ∀ id ∈ s.messages, id ∈ s.range) ∧
      (∀ s ∈ l.slices, ∀ id, id ∈ s.messages ↔ id ∈ s.range ∧ id ∈ known ops) ∧
      ∀ id, (∃ s ∈ l.slices, id ∈ s.messages) ↔ id ∈ known ops :=
  run_slices (by
    simp only [List.mem_cons, List.not_mem_nil, or_false, forall_eq_or_imp, forall_eq, Op.Valid,
      MsgRange.mem_iff, ServerMaxMsgId]
    decide)

end SparseIdsList

end Bettergram.Storage
