import Bettergram.Dialogs.DialogsListOrder

/-! # Lists sorted by name

A new row is put where it belongs. A row whose name has changed is not: going
back, it is compared the wrong way round.
-/

namespace Bettergram.Dialogs
open Foundation Foundation.Nodes

namespace DialogsList

variable {K : Type} {s : DialogsList K} {l a b : List ℕ} {row : ℕ}

variable {N : Type} [LinearOrder N] {name : K → N} {compare : K → K → ℤ}

/-- Two names are compared without regard to the case; `name` has them all in one case. -/
structure ComparesNames (compare : K → K → ℤ) (name : K → N) : Prop where
  neg : ∀ p q, compare p q < 0 ↔ name p < name q
  pos : ∀ p q, 0 < compare p q ↔ name q < name p

/-- The name of a row; only the last row has none. -/
def nameOf (name : K → N) (s : DialogsList K) (x : ℕ) : WithBot N := (s.key x).map name

def SortedByName (name : K → N) (l : List ℕ) (s : DialogsList K) : Prop :=
  Ordered (s.nameOf name) l

theorem WellFormed.testKey_less (h : s.WellFormed l) (hcompare : ComparesNames compare name)
    {key : K} (hkey : s.key row = some key) {x : ℕ} (hx : x ∈ l) :
    s.testKey (fun other => compare other key < 0) x ↔ s.nameOf name x < s.nameOf name row := by
  obtain ⟨other, hother⟩ := h.keyed x hx
  have hrow : s.nameOf name row = (name key : WithBot N) := by rw [nameOf, hkey]; rfl
  have hname : s.nameOf name x = (name other : WithBot N) := by rw [nameOf, hother]; rfl
  rw [hrow, hname, WithBot.coe_lt_coe, testKey, hother, Option.any_some, decide_eq_true_eq,
    hcompare.neg]

theorem WellFormed.le_of_not_less (h : s.WellFormed l) (hcompare : ComparesNames compare name)
    {key : K} (hkey : s.key row = some key) {x : ℕ} (hx : x ∈ l)
    (hnot : s.testKey (fun other => compare other key < 0) x = false) :
    s.nameOf name row ≤ s.nameOf name x := by
  rw [Bool.eq_false_iff, ne_eq, h.testKey_less hcompare hkey hx, not_lt] at hnot
  exact hnot

theorem WellFormed.testKey_more (h : s.WellFormed l) (hcompare : ComparesNames compare name)
    {key : K} (hkey : s.key row = some key) {x : ℕ} (hx : x ∈ l) :
    s.testKey (fun other => 0 < compare other key) x ↔ s.nameOf name row < s.nameOf name x := by
  obtain ⟨other, hother⟩ := h.keyed x hx
  have hrow : s.nameOf name row = (name key : WithBot N) := by rw [nameOf, hkey]; rfl
  have hname : s.nameOf name x = (name other : WithBot N) := by rw [nameOf, hother]; rfl
  rw [hrow, hname, WithBot.coe_lt_coe, testKey, hother, Option.any_some, decide_eq_true_eq,
    hcompare.pos]

omit [LinearOrder N] in
theorem nameOf_congr {s' : DialogsList K} (h : s'.key = s.key) : s'.nameOf name = s.nameOf name := by
  funext x
  rw [nameOf, nameOf, h]

/-- Going back goes over smaller names: the row gets to its place only where it need not. -/
theorem moveWhile_adjusts_iff (h : s.WellFormed (a ++ row :: b))
    (hcompare : ComparesNames compare name) {key : K} (hkey : s.key row = some key)
    (hsorted : s.SortedByName name (a ++ b)) :
    ∃ s' l', s.moveWhile (fun other => compare other key < 0) (fun other => compare other key < 0)
        row = some s' ∧ s'.WellFormed l' ∧ l'.Perm (a ++ row :: b) ∧ s'.key = s.key ∧
      (s'.SortedByName name l' ↔ ∀ x ∈ a.getLast?, s.nameOf name x = s.nameOf name row) := by
  obtain ⟨a, m, m', b, rfl, rfl, hm, ha, hm', hb, s', hmove, h', hkey'⟩ :=
    moveWhile_spec h (fun other => compare other key < 0) fun other => compare other key < 0
  refine ⟨s', _, hmove, h', movedRows_perm a m row m' b, hkey', ?_⟩
  rw [SortedByName, nameOf_congr hkey']
  have hless : ∀ x ∈ m, s.nameOf name x < s.nameOf name row := fun x hx =>
    (h.testKey_less hcompare hkey (by simp [hx])).mp (hm x hx)
  constructor
  · intro hresult x hx
    rw [movedRows] at hresult
    split_ifs at hresult with hnil
    · subst hnil
      rw [List.append_nil] at hx
      have hmem := List.mem_of_getLast? hx
      have hle := (List.pairwise_append.mp hresult).2.2 x (List.mem_append_left m' hmem) row
        (by simp)
      exact hle.antisymm (h.le_of_not_less hcompare hkey (by simp [hmem]) (ha x hx))
    · obtain ⟨y, m, rfl⟩ := List.exists_cons_of_ne_nil hnil
      have hle := (ordered_insert_iff.mp hresult).2.2 y (by simp)
      exact absurd (hless y (by simp)) hle.not_gt
  · intro hlast
    have hnil : m = [] := by
      cases m using List.reverseRecOn with
      | nil => rfl
      | append_singleton m y => exact absurd (hlast y (by simp)) (hless y (by simp)).ne
    subst hnil
    refine movedRows_ordered hsorted (by simp) (fun x hx => (hlast x (by simpa using hx)).le)
      (fun x hx => ?_) fun x hx => ?_
    · exact (h.testKey_less hcompare hkey (by simp [hx])).mp (hm' x hx)
    · exact h.le_of_not_less hcompare hkey (by simp [List.mem_of_head? hx]) (hb x hx)

theorem moveWhile_adds (h : s.WellFormed (a ++ row :: b))
    (hcompare : ComparesNames compare name) {key : K} (hkey : s.key row = some key)
    (hsorted : s.SortedByName name (a ++ b)) :
    ∃ s' l', s.moveWhile (fun other => 0 < compare other key) (fun other => compare other key < 0)
        row = some s' ∧ s'.WellFormed l' ∧ l'.Perm (a ++ row :: b) ∧ s'.key = s.key ∧
      s'.SortedByName name l' := by
  obtain ⟨a, m, m', b, rfl, rfl, hm, ha, hm', hb, s', hmove, h', hkey'⟩ :=
    moveWhile_spec h (fun other => 0 < compare other key) fun other => compare other key < 0
  refine ⟨s', _, hmove, h', movedRows_perm a m row m' b, hkey', ?_⟩
  rw [SortedByName, nameOf_congr hkey']
  refine movedRows_ordered hsorted (fun x hx => ?_) (fun x hx => ?_) (fun x hx => ?_)
    fun x hx => ?_
  · exact (h.testKey_more hcompare hkey (by simp [hx])).mp (hm x hx)
  · have hnot := ha x hx
    rw [Bool.eq_false_iff, ne_eq,
      h.testKey_more hcompare hkey (by simp [List.mem_of_getLast? hx]), not_lt] at hnot
    exact hnot
  · exact (h.testKey_less hcompare hkey (by simp [hx])).mp (hm' x hx)
  · exact h.le_of_not_less hcompare hkey (by simp [List.mem_of_head? hx]) (hb x hx)

/-! ## Calls -/

variable [DecidableEq K]

/-- What is called when a name has changed, and for a new key. -/
inductive NameCall (K : Type)
  | adjust (key : K)
  | add (key : K)

namespace NameCall

def key : NameCall K → K
  | adjust key => key
  | add key => key

def apply (compare : K → K → ℤ) : NameCall K → DialogsList K → Option (DialogsList K)
  | adjust key, s => s.adjustByName compare key
  | add key, s => s.addByName compare key

def Allowed : NameCall K → DialogsList K → Prop
  | adjust key, s => ∃ row, s.rowByKey key = some row
  | add key, s => s.rowByKey key = none

/-- The rows that should be there, and the one for the new key. -/
def SameRows : NameCall K → DialogsList K → List ℕ → DialogsList K → List ℕ → Prop
  | adjust _, s, l, s', l' => l'.Perm l ∧ s'.key = s.key
  | add key, s, l, s', l' =>
    l'.Perm (l ++ [s.fresh]) ∧ s'.key = Function.update s.key s.fresh (some key)

/-- A renamed row is the first one, or has the name of the row in front of it. -/
def Meets (name : K → N) : NameCall K → DialogsList K → List ℕ → Prop
  | adjust key, s, l => ∀ a x row b, l = a ++ x :: row :: b → s.key row = some key →
    s.nameOf name x = s.nameOf name row
  | add _, _, _ => True

end NameCall

/-- The other rows than that of a key. -/
theorem WellFormed.filter_key (h : s.WellFormed (a ++ row :: b)) {key : K}
    (hkey : s.key row = some key) :
    (a ++ row :: b).filter (fun x => s.key x ≠ some key) = a ++ b := by
  have hnodup := (List.nodup_append.mp h.nodup).1
  have hother : ∀ x ∈ a ++ b, s.key x ≠ some key := by
    intro x hx hsame
    have hmem : x ∈ a ++ row :: b := by
      rw [List.mem_append] at hx
      rw [List.mem_append, List.mem_cons]
      tauto
    have hrow := (h.rows key row).mpr ⟨by simp, hkey⟩
    rw [(h.rows key x).mpr ⟨hmem, hsame⟩] at hrow
    obtain rfl := Option.some.inj hrow
    obtain ⟨-, -, hxa, hxb, -, -⟩ := nodup_parts hnodup
    exact (List.mem_append.mp hx).elim hxa hxb
  rw [List.filter_append, List.filter_cons_of_neg (by simp [hkey]),
    List.filter_eq_self.mpr fun x hx => by simpa using hother x (List.mem_append_left b hx),
    List.filter_eq_self.mpr fun x hx => by simpa using hother x (List.mem_append_right a hx)]

theorem adjustByName_sorted_iff (h : s.WellFormed l) (hmode : s.sortMode = .Name)
    (hcompare : ComparesNames compare name) {key : K} (hrow : s.rowByKey key = some row)
    (hsorted : s.SortedByName name (l.filter fun x => s.key x ≠ some key)) :
    (∃ s' l', s.adjustByName compare key = some s' ∧ s'.WellFormed l' ∧
        (l'.Perm l ∧ s'.key = s.key) ∧ s'.SortedByName name l') ↔
      (NameCall.adjust key).Meets name s l := by
  obtain ⟨hmem, hkey⟩ := (h.rows key row).mp hrow
  obtain ⟨a, b, rfl⟩ := List.append_of_mem hmem
  rw [h.filter_key hkey] at hsorted
  obtain ⟨s', l', hmove, h', hperm, hkey', hiff⟩ :=
    moveWhile_adjusts_iff h hcompare hkey hsorted
  have happly : s.adjustByName compare key = some s' := by
    rw [adjustByName, if_neg (by simp [hmode]), hrow]
    exact hmove
  constructor
  · rintro ⟨t, k, ht, hk, -, horder⟩ a' x row' b' heq hrow'
    obtain rfl := Option.some.inj (happly.symm.trans ht)
    obtain rfl := h'.unique hk
    have hrow'' := (h.rows key row').mpr ⟨by rw [heq]; simp, hrow'⟩
    obtain rfl : row' = row := Option.some.inj (hrow''.symm.trans hrow)
    have hnodup := (List.nodup_append.mp h.nodup).1
    obtain ⟨-, -, hrowa, hrowb, -, -⟩ := nodup_parts hnodup
    have heq' : a' ++ [x] ++ row' :: b' = a ++ row' :: b := by simp [heq]
    rw [eq_comm, List.append_cons_inj_of_notMem hrowa hrowb] at heq'
    exact hiff.mp horder x (by simp [heq'.1])
  · intro hmeets
    refine ⟨s', l', happly, h', ⟨hperm, hkey'⟩, hiff.mpr fun x hx => ?_⟩
    obtain ⟨a', rfl⟩ := List.getLast?_eq_some_iff.mp hx
    exact hmeets a' x row b (by simp) hkey

theorem addByName_sorted (h : s.WellFormed l) (hmode : s.sortMode = .Name)
    (hcompare : ComparesNames compare name) {key : K} (hnew : s.rowByKey key = none)
    (hsorted : s.SortedByName name (l.filter fun x => s.key x ≠ some key)) :
    ∃ s' l', s.addByName compare key = some s' ∧ s'.WellFormed l' ∧
      (l'.Perm (l ++ [s.fresh]) ∧ s'.key = Function.update s.key s.fresh (some key)) ∧
        s'.SortedByName name l' := by
  have hother : ∀ x ∈ l, s.key x ≠ some key := by
    intro x hx hsame
    rw [(h.rows key x).mpr ⟨hx, hsame⟩] at hnew
    exact absurd hnew (by simp)
  rw [List.filter_eq_self.mpr fun x hx => by simpa using hother x hx] at hsorted
  obtain ⟨s₂, h₂, hkey₂, hmode₂, hadd⟩ := addToEnd_eq h hnew fun _ => 0
  have hrow : s₂.key s.fresh = some key := by
    rw [hkey₂]
    exact Function.update_self ..
  have hsorted₂ : s₂.SortedByName name (l ++ []) := by
    rw [List.append_nil]
    refine List.Pairwise.imp_of_mem (fun {x y} hx hy hle => ?_) hsorted
    have hsame : ∀ z ∈ l, s₂.nameOf name z = s.nameOf name z := fun z hz => by
      have hne : z ≠ s.fresh := (h.fresh z (List.mem_append_left _ hz)).ne
      rw [nameOf, nameOf, hkey₂, Function.update_of_ne hne]
    rw [hsame x hx, hsame y hy]
    exact hle
  obtain ⟨s', l', hmove, h', hperm, hkey', horder⟩ := moveWhile_adds h₂ hcompare hrow hsorted₂
  refine ⟨s', l', ?_, h', ⟨hperm, hkey'.trans hkey₂⟩, horder⟩
  rw [addByName, if_neg (by simp [hmode]), hadd, if_neg (by simp [hmode₂, hmode])]
  exact hmove

/-- The list is in order again exactly when the call meets the condition. -/
theorem sorted_by_name_iff (h : s.WellFormed l) (hmode : s.sortMode = .Name)
    (hcompare : ComparesNames compare name) (call : NameCall K) (hallowed : call.Allowed s)
    (hsorted : s.SortedByName name (l.filter fun x => s.key x ≠ some call.key)) :
    (∃ s' l', call.apply compare s = some s' ∧ s'.WellFormed l' ∧ call.SameRows s l s' l' ∧
        s'.SortedByName name l') ↔ call.Meets name s l := by
  cases call with
  | adjust key =>
    obtain ⟨row, hrow⟩ := hallowed
    exact adjustByName_sorted_iff h hmode hcompare hrow hsorted
  | add key => exact iff_of_true (addByName_sorted h hmode hcompare hallowed hsorted) trivial

/-- Names that are numbers. -/
theorem comparesNames_sub (name : ℕ → ℕ) :
    ComparesNames (fun p q => (name p : ℤ) - name q) name where
  neg p q := by omega
  pos p q := by omega

/-- The rows of two names in their order. -/
theorem twoNames_wellFormed : ∃ s : DialogsList ℕ, s.WellFormed [1, 2] ∧ s.sortMode = .Name ∧
    s.key 1 = some 1 ∧ s.key 2 = some 2 := by
  let byNumber : ℕ → ℕ → ℤ := fun p q => (p : ℤ) - q
  obtain ⟨s, s₁, hs₁, hallowed, hstep, hmode, hkey₁, hkey₂, hbegin, hprev, hnext⟩ :
      ∃ s s₁, (new .Name).step (.addByName byNumber 1) = some s₁ ∧
        s₁.Allowed (.addByName byNumber 2) ∧ s₁.step (.addByName byNumber 2) = some s ∧
        s.sortMode = .Name ∧ s.key 1 = some 1 ∧ s.key 2 = some 2 ∧ s.begin = some 1 ∧
        [1, 2, last].map s.nodes.prev = [none, some 1, some 2] ∧
        [1, 2, last].map s.nodes.next = [some 2, some last, none] :=
    ⟨_, _, rfl, rfl, rfl, rfl, rfl, rfl, rfl, rfl, rfl⟩
  have h := two_wellFormed hs₁ rfl trivial hstep hallowed trivial hbegin hprev hnext
  exact ⟨s, h, hmode, hkey₁, hkey₂⟩

/-- The second name becomes the smallest. -/
def renamed (key : ℕ) : ℕ := if key = 2 then 0 else key

/-- The second of two rows is renamed to what should be in front, and stays. -/
theorem adjustByName_stays : ¬ ∀ (s : DialogsList ℕ) (l : List ℕ) (compare : ℕ → ℕ → ℤ)
    (name : ℕ → ℕ) (call : NameCall ℕ), s.WellFormed l → s.sortMode = .Name →
    ComparesNames compare name → call.Allowed s →
    s.SortedByName name (l.filter fun x => s.key x ≠ some call.key) →
      ∃ s' l', call.apply compare s = some s' ∧ s'.WellFormed l' ∧ call.SameRows s l s' l' ∧
        s'.SortedByName name l' := by
  intro hall
  obtain ⟨s, h, hmode, hkey₁, hkey₂⟩ := twoNames_wellFormed
  have hrow : s.rowByKey 2 = some 2 := (h.rows 2 2).mpr ⟨by simp, hkey₂⟩
  have hsorted : s.SortedByName renamed ([1, 2].filter fun x => s.key x ≠ some 2) := by
    simp [hkey₁, hkey₂, SortedByName, Ordered]
  have hcompare := comparesNames_sub renamed
  have hright := hall s [1, 2] _ renamed (.adjust 2) h hmode hcompare ⟨2, hrow⟩ hsorted
  have hmeets := (adjustByName_sorted_iff h hmode hcompare hrow hsorted).mp hright
  have hsame := hmeets [] 1 2 [] rfl hkey₂
  rw [nameOf, nameOf, hkey₁, hkey₂] at hsame
  exact absurd (Option.some.inj hsame) (by decide)

/-- The first of two rows is renamed to what should be behind. -/
theorem sorted_by_name_iff_first : ∃ (s s' : DialogsList ℕ) (l' : List ℕ),
    s.adjustByName (fun p q => ((3 - p : ℕ) : ℤ) - (3 - q : ℕ)) 1 = some s' ∧ s'.WellFormed l' ∧
      s'.SortedByName (3 - ·) l' := by
  obtain ⟨s, h, hmode, hkey₁, hkey₂⟩ := twoNames_wellFormed
  have hrow : s.rowByKey 1 = some 1 := (h.rows 1 1).mpr ⟨by simp, hkey₁⟩
  have hsorted : s.SortedByName (3 - ·) ([1, 2].filter fun x => s.key x ≠ some 1) := by
    simp [hkey₁, hkey₂, SortedByName, Ordered]
  have hiff := sorted_by_name_iff h hmode (comparesNames_sub (3 - ·)) (.adjust 1) ⟨1, hrow⟩ hsorted
  have hmeets : (NameCall.adjust 1).Meets (fun p => 3 - p) s [1, 2] := by
    intro a x row b heq hkey
    have hrow' : row = 2 := by
      have hlength := congrArg List.length heq
      have ha : a = [] := by
        rw [List.length_append, List.length_cons, List.length_cons] at hlength
        exact List.length_eq_zero_iff.mp (by simp at hlength; omega)
      subst ha
      simpa using (List.cons.inj (List.cons.inj heq).2).1.symm
    rw [hrow', hkey₂] at hkey
    exact absurd hkey (by decide)
  obtain ⟨s', l', happly, h', -, horder⟩ := hiff.mpr hmeets
  exact ⟨s, s', l', happly, h', horder⟩

end DialogsList

end Bettergram.Dialogs
