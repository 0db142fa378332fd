import Bettergram.Ui.Text.ParseEntitiesLinks
import Mathlib.Algebra.Order.Ring.Int
import Mathlib.Data.List.Pairwise
import Mathlib.Data.List.TakeWhile

/-! # Links among the existing entities

A link goes to the result and existing entities go to another list, and at the
end one of the two is taken: with existing entities the links are lost or stand
behind them.
-/

namespace Bettergram.Ui.Text

variable {q : Tables} {m : Matchers} {flags : Flags} {text : QString}

/-! ## The links of a text -/

/-- The loop ends, and its links come one behind the other. -/
theorem recognised_spec (q : Tables) (flags : Flags) (hm : m.Inside text)
    (hsize : text.length ≤ kNotFound) (fuel : ℕ) {s : Scan} (hs : s.offset ≤ s.matchOffset)
    (hlength : s.matchOffset ≤ text.length) (hfuel : text.length < fuel + s.matchOffset) :
    ∃ links, recognised q m flags text fuel s = some links ∧
      (∀ link ∈ links, (s.offset : ℤ) ≤ link.offset ∧ 0 < link.length) ∧
      links.Pairwise fun a b => a.stop ≤ b.offset := by
  induction fuel generalizing s with
  | zero => omega
  | succ fuel ih =>
    rw [recognised]
    split_ifs
    swap
    · exact ⟨[], rfl, by simp, List.Pairwise.nil⟩
    obtain ⟨round, hround, hgets⟩ := findLink_getsOn q flags hm hsize hs
    rw [hround]
    cases round with
    | stop => exact ⟨[], rfl, by simp, List.Pairwise.nil⟩
    | skip next =>
      obtain ⟨hoffset, hnext, hlt, hle⟩ := hgets
      obtain ⟨links, hlinks, hall, hpairwise⟩ := ih hnext hle (by omega)
      refine ⟨links, hlinks, fun link hlink => ⟨?_, (hall link hlink).2⟩, hpairwise⟩
      have := (hall link hlink).1
      omega
    | link lnkType lnkStart lnkLength mentionSkip =>
      obtain ⟨hoffset, hpos, hlt, hle⟩ := hgets
      obtain ⟨links, hlinks, hall, hpairwise⟩ :=
        ih (s := ⟨lnkStart + lnkLength, lnkStart + lnkLength, mentionSkip⟩) le_rfl hle
          (by simp only; omega)
      refine ⟨linkEntity lnkType lnkStart lnkLength :: links,
        by simp only [hlinks, Option.map_some], ?_, List.pairwise_cons.mpr ⟨?_, hpairwise⟩⟩
      · intro link hlink
        obtain rfl | hlink := List.mem_cons.mp hlink
        · simp only [linkEntity]
          omega
        · have := hall link hlink
          simp only at this
          omega
      · intro link hlink
        have := hall link hlink
        simp only [linkEntity, EntityInText.stop] at this ⊢
        omega

theorem parseLoop_eq (count fuel : ℕ) (s : Scan) (merge : Merge) :
    parseLoop q m flags text count fuel s merge =
      (recognised q m flags text fuel s).map fun links => links.foldl (addLink count) merge := by
  induction fuel generalizing s merge with
  | zero => rfl
  | succ fuel ih =>
    rw [parseLoop, recognised]
    split_ifs
    swap
    · rfl
    cases findLink q m flags text s with
    | none => rfl
    | some round =>
      cases round with
      | stop => rfl
      | skip next => exact ih next merge
      | link lnkType lnkStart lnkLength mentionSkip =>
        simp only [ih, Option.map_map]
        rfl

/-! ## Merging -/

/-- What is known after some links of a list: `passed` are the existing entities that are
among the new ones. -/
structure Merged (existing links : List EntityInText) (s : Merge) : Prop where
  index : s.existingEntityIndex ≤ existing.length
  newEntities : s.newEntities = existing.take s.existingEntityIndex
  passed : ∀ link ∈ links, ∀ entity ∈ existing, entity.offset ≤ link.offset → entity ∈ s.newEntities
  early : ∀ entity ∈ s.newEntities, ∃ link ∈ links, entity.offset ≤ link.offset
  stop_le : ∀ bound : ℤ, 0 ≤ bound →
    (s.existingEntityEnd ≤ bound ↔ ∀ entity ∈ s.newEntities, entity.stop ≤ bound)
  entities : ∃ added, s.entities = existing ++ added ∧ added.Sublist links ∧
    ∀ link, link ∈ added ↔ link ∈ links ∧ Clear existing link

theorem foldl_max_le (entities : List EntityInText) (stop bound : ℤ) :
    entities.foldl (fun stop entity => max stop entity.stop) stop ≤ bound ↔
      stop ≤ bound ∧ ∀ entity ∈ entities, entity.stop ≤ bound := by
  induction entities generalizing stop with
  | nil => simp
  | cons entity entities ih =>
    rw [List.foldl_cons, ih, max_le_iff, List.forall_mem_cons, and_assoc]

theorem mem_takeWhile_of_sorted {entities : List EntityInText} (hsorted : SortedByOffset entities)
    {bound : ℤ} {entity : EntityInText} (hmem : entity ∈ entities) (hle : entity.offset ≤ bound) :
    entity ∈ entities.takeWhile fun entity => entity.offset ≤ bound := by
  induction entities with
  | nil => cases hmem
  | cons first entities ih =>
    obtain ⟨hfirst, hrest⟩ := List.pairwise_cons.mp hsorted
    obtain rfl | hmem := List.mem_cons.mp hmem
    · rw [List.takeWhile_cons_of_pos (by simpa using hle)]
      exact List.mem_cons_self
    · have := (hfirst entity hmem).trans hle
      rw [List.takeWhile_cons_of_pos (by simpa using this)]
      exact List.mem_cons_of_mem _ (ih hrest hmem)

theorem addLink_merged {existing links : List EntityInText} (hsorted : SortedByOffset existing)
    {s : Merge} (h : Merged existing links s) {link : EntityInText} (hlink : 0 ≤ link.offset)
    (hlast : ∀ other ∈ links, other.offset ≤ link.offset) :
    Merged existing (links ++ [link]) (addLink existing.length s link) := by
  obtain ⟨added, hentities, hsub, hadded⟩ := h.entities
  have hrest : (s.entities.take existing.length).drop s.existingEntityIndex =
      existing.drop s.existingEntityIndex := by
    rw [hentities, List.take_left]
  rw [addLink, hrest]
  have hstartsWith := List.takeWhile_prefix (l := existing.drop s.existingEntityIndex)
    fun entity : EntityInText => decide (entity.offset ≤ link.offset)
  have hbefore : ∀ entity ∈ (existing.drop s.existingEntityIndex).takeWhile
      (fun entity => decide (entity.offset ≤ link.offset)), entity.offset ≤ link.offset := by
    intro entity hentity
    simpa using List.mem_takeWhile_imp hentity
  have hin : ∀ entity ∈ existing, entity.offset ≤ link.offset →
      entity ∈ s.newEntities ++ (existing.drop s.existingEntityIndex).takeWhile
        fun entity => decide (entity.offset ≤ link.offset) := by
    intro entity hentity hle
    rw [← List.take_append_drop s.existingEntityIndex existing, ← h.newEntities,
      List.mem_append] at hentity
    rw [List.mem_append]
    exact hentity.imp id fun hmem =>
      mem_takeWhile_of_sorted (hsorted.sublist (List.drop_sublist _ _)) hmem hle
  have htake : s.newEntities ++ (existing.drop s.existingEntityIndex).takeWhile
      (fun entity => decide (entity.offset ≤ link.offset)) =
      existing.take (s.existingEntityIndex + ((existing.drop s.existingEntityIndex).takeWhile
        fun entity => decide (entity.offset ≤ link.offset)).length) := by
    rw [List.take_add, ← h.newEntities, ← List.prefix_iff_eq_take.mp hstartsWith]
  have hstop : ∀ bound : ℤ, 0 ≤ bound →
      (((existing.drop s.existingEntityIndex).takeWhile
        fun entity => decide (entity.offset ≤ link.offset)).foldl
          (fun stop entity => max stop entity.stop) s.existingEntityEnd ≤ bound ↔
        ∀ entity ∈ s.newEntities ++ (existing.drop s.existingEntityIndex).takeWhile
          fun entity => decide (entity.offset ≤ link.offset), entity.stop ≤ bound) := by
    intro bound hbound
    rw [foldl_max_le, h.stop_le bound hbound]
    simp only [List.mem_append, or_imp, forall_and]
  generalize (existing.drop s.existingEntityIndex).takeWhile
    (fun entity => decide (entity.offset ≤ link.offset)) = before at *
  have hearly : ∀ entity ∈ s.newEntities ++ before, entity.offset ≤ link.offset := by
    intro entity hentity
    obtain hentity | hentity := List.mem_append.mp hentity
    · obtain ⟨other, hother, hle⟩ := h.early entity hentity
      exact hle.trans (hlast other hother)
    · exact hbefore entity hentity
  have hclear : before.foldl (fun stop entity => max stop entity.stop) s.existingEntityEnd ≤
      link.offset ↔ Clear existing link := by
    rw [hstop link.offset hlink]
    constructor
    · exact fun hall entity hentity hle => hall entity (hin entity hentity hle)
    · intro hclear entity hentity
      refine hclear entity ?_ (hearly entity hentity)
      rw [htake] at hentity
      exact List.mem_of_mem_take hentity
  refine ⟨?_, htake, ?_, ?_, hstop, ?_⟩
  · have := hstartsWith.length_le
    have := h.index
    rw [List.length_drop] at *
    simp only
    omega
  · intro other hother entity hentity hle
    obtain hother | hother := List.mem_append.mp hother
    · exact List.mem_append_left _ (h.passed other hother entity hentity hle)
    · rw [List.mem_singleton.mp hother] at hle
      exact hin entity hentity hle
  · exact fun entity hentity => ⟨link, by simp, hearly entity hentity⟩
  · split_ifs with hle
    · refine ⟨added ++ [link], by rw [hentities, List.append_assoc],
        List.Sublist.append hsub (List.Sublist.refl _), fun other => ?_⟩
      have := hclear.mp hle
      simp only [List.mem_append, List.mem_singleton, hadded other, or_and_right]
      refine or_congr_right ⟨fun heq => ⟨heq, heq ▸ this⟩, And.left⟩
    · refine ⟨added, hentities, hsub.trans (List.sublist_append_left _ _), fun other => ?_⟩
      have := mt hclear.mpr hle
      simp only [List.mem_append, List.mem_singleton, hadded other, or_and_right]
      exact ⟨.inl, fun hor => hor.resolve_right fun heq => this (heq.1 ▸ heq.2)⟩

theorem foldl_merged {existing : List EntityInText} (hsorted : SortedByOffset existing)
    {done : List EntityInText} (links : List EntityInText) {s : Merge} (h : Merged existing done s)
    (hlinks : (done ++ links).Pairwise fun a b => a.offset ≤ b.offset)
    (hpos : ∀ link ∈ links, 0 ≤ link.offset) :
    Merged existing (done ++ links) (links.foldl (addLink existing.length) s) := by
  induction links generalizing done s with
  | nil => rwa [List.append_nil]
  | cons link links ih =>
    rw [List.foldl_cons]
    have hsplit : done ++ link :: links = done ++ [link] ++ links := by simp
    rw [hsplit] at hlinks ⊢
    refine ih (addLink_merged hsorted h (hpos link List.mem_cons_self) fun other hother => ?_)
      hlinks fun other hother => hpos other (List.mem_cons_of_mem _ hother)
    rw [List.append_assoc] at hlinks
    exact (List.pairwise_append.mp hlinks).2.2 other hother link (by simp)

theorem start_merged (existing : List EntityInText) : Merged existing [] ⟨0, 0, [], existing⟩ where
  index := Nat.zero_le _
  newEntities := rfl
  passed := by simp
  early := by simp
  stop_le bound hbound := by simp [hbound]
  entities := ⟨[], (List.append_nil _).symm, List.Sublist.refl _, by simp⟩

/-- The end of the function takes the existing entities or, when no link came behind one of
them, puts the links behind all of them. -/
theorem merged_adds_iff {existing links : List EntityInText} (hsorted : SortedByOffset existing)
    (hlinks : SortedByOffset links) (hlength : ∀ link ∈ links, 0 < link.length) {s : Merge}
    (h : Merged existing links s) :
    Adds existing links (merged existing.length s) ↔
      existing = [] ∨ ∀ link ∈ links, ¬ Clear existing link := by
  obtain ⟨added, hentities, hsub, hadded⟩ := h.entities
  have hresult : merged existing.length s =
      if s.newEntities ≠ [] then existing else existing ++ added := by
    rw [merged, hentities, List.take_left, h.newEntities, List.take_append_drop]
  rw [hresult]
  constructor
  · intro hadds
    by_contra hnot
    rw [not_or, not_forall] at hnot
    obtain ⟨hne, link, hlink⟩ := hnot
    rw [Classical.not_imp, not_not] at hlink
    obtain ⟨hlink, hclear⟩ := hlink
    have hin := hadds.added link hlink hclear
    split_ifs at hin with hnew
    · -- the link is behind itself, so it would be empty
      have hstop := hclear link hin le_rfl
      have := hlength link hlink
      rw [EntityInText.stop] at hstop
      omega
    · have hrange := hadds.sorted
      rw [if_neg hnew] at hrange
      obtain ⟨first, hfirst⟩ := List.exists_mem_of_ne_nil existing hne
      have hle := (List.pairwise_append.mp hrange).2.2 first hfirst link
        ((hadded link).mpr ⟨hlink, hclear⟩)
      have := h.passed link hlink first hfirst hle
      rw [not_not.mp hnew] at this
      cases this
  · rintro (rfl | hnot)
    · have hall : (if s.newEntities ≠ [] then [] else [] ++ added) = added := by
        rw [h.newEntities, List.take_nil, if_neg (not_not.mpr rfl), List.nil_append]
      rw [hall]
      exact ⟨List.nil_sublist _, fun link hlink hclear => (hadded link).mpr ⟨hlink, hclear⟩,
        hlinks.sublist hsub⟩
    · have hnone : added = [] := by
        refine List.eq_nil_iff_forall_not_mem.mpr fun link hlink => ?_
        obtain ⟨hlink, hclear⟩ := (hadded link).mp hlink
        exact hnot link hlink hclear
      rw [hnone, List.append_nil, ite_self]
      exact ⟨List.Sublist.refl _, fun link hlink hclear => absurd hclear (hnot link hlink), hsorted⟩

/-- Links are added to the existing entities exactly when there are none of these, or no
recognised link is clear of them. -/
theorem parseEntities_adds_iff (q : Tables) (m : Matchers) (flags : Flags)
    (result : TextWithEntities) (hsorted : SortedByOffset result.entities)
    (hm : m.Inside result.text) (hsize : result.text.length ≤ kNotFound) :
    ∃ links after, recognisedLinks q m flags result.text = some links ∧
      ParseEntities q m flags result = some after ∧ after.text = result.text ∧
      (Adds result.entities links after.entities ↔
        result.entities = [] ∨ ∀ link ∈ links, ¬ Clear result.entities link) := by
  obtain ⟨links, hlinks, hall, hpairwise⟩ := recognised_spec q flags hm hsize
    (result.text.length + 1) (s := ⟨0, 0, 0⟩) le_rfl (Nat.zero_le _) (by simp only; omega)
  have hstarts : SortedByOffset links := by
    refine hpairwise.imp_of_mem fun {a b} ha _ hab => ?_
    have := (hall a ha).2
    rw [EntityInText.stop] at hab
    omega
  have hmerged := foldl_merged hsorted links (start_merged result.entities)
    (by rwa [List.nil_append]) fun link hlink => (hall link hlink).1
  have hparse : ParseEntities q m flags result = some { result with
      entities := merged result.entities.length
        (links.foldl (addLink result.entities.length) ⟨0, 0, [], result.entities⟩) } := by
    rw [ParseEntities, parseLoop_eq, hlinks]
    rfl
  refine ⟨links, _, hlinks, hparse, rfl, ?_⟩
  exact merged_adds_iff hsorted hstarts (fun link hlink => (hall link hlink).2)
    (by rwa [List.nil_append] at hmerged)

/-- `a #ab` with a bold `a`. -/
def boldAndHashtag : TextWithEntities := ⟨[97, 32, 35, 97, 98], [⟨.bold, 0, 1, []⟩]⟩

/-- What the expressions find in `a #ab`. -/
def hashtagMatchers : Matchers where
  domain _ := none
  domainExplicit _ := none
  hashtag offset := if offset ≤ 1 then some ⟨1, 5, fun n => if n = 1 then [32] else []⟩ else none
  mention _ := none
  botCommand _ := none
  hashtagExclude _ := false
  mailNameAtEnd _ := none
  toLower piece := piece
  isValidProtocol _ := false
  isValidTopDomain _ := false

theorem hashtagMatchers_inside : hashtagMatchers.Inside boldAndHashtag.text where
  domain _ _ h := by cases h
  domainExplicit _ _ h := by cases h
  hashtag offset found h := by
    simp only [hashtagMatchers] at h
    split_ifs at h with hle
    obtain rfl := Option.some.inj h
    exact ⟨hle, by decide, by decide⟩
  mention _ _ h := by cases h
  botCommand _ _ h := by cases h
  mailNameAtEnd _ _ h := by cases h

theorem parseEntities_adds_iff_hashtag :
    ∃ links after, recognisedLinks plainTables hashtagMatchers ⟨true, false, false⟩
        boldAndHashtag.text = some links ∧
      ParseEntities plainTables hashtagMatchers ⟨true, false, false⟩ boldAndHashtag = some after ∧
      after.text = boldAndHashtag.text ∧
      (Adds boldAndHashtag.entities links after.entities ↔
        boldAndHashtag.entities = [] ∨ ∀ link ∈ links, ¬ Clear boldAndHashtag.entities link) :=
  parseEntities_adds_iff plainTables hashtagMatchers ⟨true, false, false⟩ boldAndHashtag
    (by decide) hashtagMatchers_inside (by decide)

/-- The hashtag behind the bold letter is lost. -/
theorem parseEntities_loses_link :
    ¬ ∀ (q : Tables) (m : Matchers) (flags : Flags) (result : TextWithEntities),
      SortedByOffset result.entities → m.Inside result.text → result.text.length ≤ kNotFound →
      ∃ links after, recognisedLinks q m flags result.text = some links ∧
        ParseEntities q m flags result = some after ∧
        Adds result.entities links after.entities := by
  intro h
  obtain ⟨links, after, hlinks, hafter, hadds⟩ := h plainTables hashtagMatchers
    ⟨true, false, false⟩ boldAndHashtag (by decide) hashtagMatchers_inside (by decide)
  obtain rfl : [linkEntity .hashtag 2 3] = links := Option.some.inj hlinks
  obtain rfl : boldAndHashtag = after := Option.some.inj hafter
  have hin := hadds.added (linkEntity .hashtag 2 3) List.mem_cons_self fun entity hentity _ => by
    obtain rfl := List.mem_singleton.mp hentity
    decide
  exact absurd hin (by decide)

end Bettergram.Ui.Text
