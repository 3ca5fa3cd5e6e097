import Mathlib.Algebra.Order.BigOperators.Group.Finset
import Mathlib.Data.Fintype.Basic
import Mathlib.Order.Bounds.Basic
import OSwitch.Lib.StreamMerge

/-!
# The merge of lists

The streams begin with lists, and rounds are made as long as every front lies
in its list. There are at most as many rounds as elements. On lists of strictly
increasing keys a round takes all elements with one key, so the merge is the
grouping by key, up to the least of the last keys.
-/

namespace StreamMerge
variable {α κ : Type*} [LinearOrder κ] {n : ℕ}

/-! ### One sorted list -/

section list
variable {key : α → κ} {l : List α}

def SortedBy (key : α → κ) (l : List α) : Prop := l.Pairwise fun x y => key x < key y

theorem SortedBy.lt {a b : ℕ} {x y : α} (h : SortedBy key l) (hx : l[a]? = some x)
    (hy : l[b]? = some y) (hab : a < b) : key x < key y := by
  obtain ⟨ha, rfl⟩ := List.getElem?_eq_some_iff.mp hx
  obtain ⟨hb, rfl⟩ := List.getElem?_eq_some_iff.mp hy
  exact List.pairwise_iff_getElem.mp h a b ha hb hab

/-- A key belongs to one element at most. -/
theorem SortedBy.filter_eq_singleton {x : α} (h : SortedBy key l) (hx : x ∈ l) :
    l.filter (fun y => key y = key x) = [x] := by
  induction l with
  | nil => cases hx
  | cons y l ih =>
    obtain ⟨hy, hl⟩ := List.pairwise_cons.mp h
    rcases List.mem_cons.mp hx with rfl | hx
    · have hnone : l.filter (fun y => key y = key x) = [] := by
        apply List.filter_eq_nil_iff.mpr
        intro z hz
        simpa using (hy z hz).ne'
      rw [List.filter_cons_of_pos (by simp), hnone]
    · have hne : key y ≠ key x := (hy x hx).ne
      rw [List.filter_cons_of_neg (by simpa using hne), ih hl hx]

/-- Where a list is cut by a bound on the keys, the rest is what exceeds it. -/
theorem drop_eq_filter {k : ℕ} {M : κ} (h : ∀ a x, l[a]? = some x → (a < k ↔ key x ≤ M)) :
    l.drop k = l.filter fun x => M < key x := by
  induction l generalizing k with
  | nil => simp
  | cons y l ih =>
    have hy := h 0 y rfl
    have hl : ∀ a x, l[a]? = some x → (a + 1 < k ↔ key x ≤ M) := fun a x hx => h (a + 1) x hx
    cases k with
    | zero =>
      have hlt : M < key y := not_le.mp fun hle => Nat.not_lt_zero _ (hy.mpr hle)
      have hnone : ∀ a x, l[a]? = some x → (a < 0 ↔ key x ≤ M) := by
        intro a x hx
        rw [← hl a x hx]
        omega
      have hrest : l = l.filter fun x => M < key x := ih hnone
      rw [List.drop_zero, List.filter_cons_of_pos (by simpa using hlt), ← hrest]
    | succ k =>
      have hle : key y ≤ M := hy.mp (Nat.succ_pos k)
      rw [List.drop_succ_cons, List.filter_cons_of_neg (by simpa using hle)]
      apply ih
      intro a x hx
      rw [← hl a x hx]
      omega

theorem flatMap_ite_singleton {β : Type*} (p : β → Prop) [DecidablePred p] (f : β → α)
    (is : List β) :
    (is.flatMap fun i => if p i then [f i] else []) = (is.filter fun i => p i).map f := by
  induction is with
  | nil => rfl
  | cons i is ih =>
    rw [List.flatMap_cons, ih]
    by_cases hi : p i
    · rw [if_pos hi, List.filter_cons_of_pos (by simpa using hi)]
      rfl
    · rw [if_neg hi, List.filter_cons_of_neg (by simpa using hi)]
      rfl

end list

/-! ### What the grouping is -/

section grouping
variable (key : α → κ) (xs : Fin n → List α)

/-- The elements with key `k`, list by list. -/
def group (k : κ) : List α := (List.finRange n).flatMap fun i => (xs i).filter fun x => key x = k

/-- The keys of the last elements. -/
def lastKeys : Set κ := {k | ∃ i, ∃ x, (xs i).getLast? = some x ∧ key x = k}

/-- `ks` are the keys up to `M`, each once, in increasing order. -/
structure KeysUpTo (M : κ) (ks : List κ) : Prop where
  increasing : ks.Pairwise (· < ·)
  mem_iff : ∀ k, k ∈ ks ↔ k ≤ M ∧ ∃ i, ∃ x ∈ xs i, key x = k

end grouping

/-! ### Rounds on lists -/

section rounds
variable (key : α → κ) (top : κ) (feed : Fin n → ℕ → α) (xs : Fin n → List α)

/- The streams begin with the lists, whose keys lie below the sentinel. -/
structure Begins : Prop where
  get : ∀ i a x, (xs i)[a]? = some x → feed i a = x
  below : ∀ i, ∀ x ∈ xs i, key x < top

/- The fronts of the first `R` rounds lie in the lists. -/
def Avail (R : ℕ) : Prop := ∀ r < R, ∀ i, position key top feed r i < (xs i).length

end rounds

variable {key : α → κ} {top : κ} {feed : Fin n → ℕ → α} {xs : Fin n → List α} {R : ℕ}

theorem Begins.getElem? (hb : Begins key top feed xs) {i : Fin n} {a : ℕ}
    (ha : a < (xs i).length) : (xs i)[a]? = some (feed i a) := by
  have hget := List.getElem?_eq_getElem ha
  rw [hb.get i a _ hget]
  exact hget

theorem Begins.mem (hb : Begins key top feed xs) {i : Fin n} {a : ℕ} (ha : a < (xs i).length) :
    feed i a ∈ xs i := List.mem_of_getElem? (hb.getElem? ha)

theorem Begins.exists_chosen (hb : Begins key top feed xs) (hn : 0 < n)
    (ha : Avail key top feed xs R) {r : ℕ} (hr : r < R) :
    ∃ i, i ∈ chosen key top feed (position key top feed r) :=
  List.exists_mem_of_ne_nil _ (chosen_ne_nil hn fun i => hb.below i _ (hb.mem (ha r hr i)))

/-- Every round takes an element. -/
theorem Begins.le_sum_position (hb : Begins key top feed xs) (hn : 0 < n)
    (ha : Avail key top feed xs R) {r : ℕ} (hr : r ≤ R) :
    r ≤ ∑ i, position key top feed r i := by
  induction r with
  | zero => exact Nat.zero_le _
  | succ r ih =>
    obtain ⟨i, hi⟩ := hb.exists_chosen hn ha hr
    have htaken : position key top feed r i < position key top feed (r + 1) i :=
      (Nat.lt_succ_self _).trans_eq (advance_of_chosen hi).symm
    have hmore := Finset.sum_lt_sum (fun j _ => position_le_succ r j)
      ⟨i, Finset.mem_univ i, htaken⟩
    exact (ih (Nat.le_of_succ_le hr)).trans_lt hmore

theorem Avail.position_le (ha : Avail key top feed xs R) (i : Fin n) :
    position key top feed R i ≤ (xs i).length := by
  cases R with
  | zero => exact Nat.zero_le _
  | succ r => exact (position_succ_le r i).trans (ha r (Nat.lt_succ_self r) i)

/-- There are at most as many rounds as elements. -/
theorem Begins.rounds_le (hb : Begins key top feed xs) (hn : 0 < n)
    (ha : Avail key top feed xs R) : R ≤ ∑ i, (xs i).length :=
  (hb.le_sum_position hn ha le_rfl).trans (Finset.sum_le_sum fun i _ => ha.position_le i)

/-! ### Rounds on sorted lists -/

section sorted
variable (hb : Begins key top feed xs) (hs : ∀ i, SortedBy key (xs i))
  (ha : Avail key top feed xs R)
include hb hs ha

theorem lt_position_of_le {r a : ℕ} {i : Fin n} (hr : r < R) (hi : a < (xs i).length)
    (hle : key (feed i a) ≤ least key top feed (position key top feed r)) :
    a < position key top feed (r + 1) i := by
  have hfront : key (feed i a) ≤ key (feed i (position key top feed r i)) := hle.trans (least_le i)
  rcases Nat.lt_trichotomy a (position key top feed r i) with hlt | heq | hgt
  · exact hlt.trans_le (position_le_succ r i)
  · have hchosen : i ∈ chosen key top feed (position key top feed r) := by
      apply mem_chosen.mpr
      rw [← heq]
      exact le_antisymm hle ((least_le i).trans_eq (by rw [heq]))
    rw [heq]
    exact (Nat.lt_succ_self _).trans_eq (advance_of_chosen hchosen).symm
  · have hkey := (hs i).lt (hb.getElem? (ha r hr i)) (hb.getElem? hi) hgt
    exact absurd hfront (not_le.mpr hkey)

/-- The least keys of the rounds increase. -/
theorem least_lt_succ (hn : 0 < n) {r : ℕ} (hr : r + 1 < R) :
    least key top feed (position key top feed r) <
      least key top feed (position key top feed (r + 1)) := by
  obtain ⟨i, hi⟩ := hb.exists_chosen hn ha hr
  apply not_le.mp
  intro hle
  rw [← mem_chosen.mp hi] at hle
  exact lt_irrefl _ (lt_position_of_le hb hs ha (Nat.lt_of_succ_lt hr) (ha _ hr i) hle)

theorem least_lt (hn : 0 < n) {q r : ℕ} (hq : q < r) (hr : r < R) :
    least key top feed (position key top feed q) <
      least key top feed (position key top feed r) := by
  induction r with
  | zero => exact absurd hq (Nat.not_lt_zero q)
  | succ r ih =>
    have hstep := least_lt_succ hb hs ha hn hr
    rcases Nat.lt_succ_iff_lt_or_eq.mp hq with hlt | rfl
    · exact (ih hlt (Nat.lt_of_succ_lt hr)).trans hstep
    · exact hstep

/-- A round leaves in every list what exceeds its key. -/
theorem lt_position_iff (hn : 0 < n) {r a : ℕ} {i : Fin n} (hr : r < R) (hi : a < (xs i).length) :
    a < position key top feed (r + 1) i ↔
      key (feed i a) ≤ least key top feed (position key top feed r) := by
  constructor
  · intro hlt
    obtain ⟨q, -, hq, rfl, hchosen⟩ := exists_round (Nat.zero_le _) (Nat.zero_le _) hlt
    rw [mem_chosen.mp hchosen]
    rcases Nat.lt_succ_iff_lt_or_eq.mp hq with hlt | rfl
    · exact (least_lt hb hs ha hn hlt hr).le
    · exact le_rfl
  · exact lt_position_of_le hb hs ha hr hi

theorem filter_of_round (hn : 0 < n) {r : ℕ} (hr : r < R) (i : Fin n) :
    (xs i).filter (fun x => key x = least key top feed (position key top feed r)) =
      if key (feed i (position key top feed r i)) = least key top feed (position key top feed r)
      then [feed i (position key top feed r i)] else [] := by
  split
  next heq =>
    rw [← heq]
    exact (hs i).filter_eq_singleton (hb.mem (ha r hr i))
  next hne =>
    apply List.filter_eq_nil_iff.mpr
    intro x hx hkey
    obtain ⟨a, hget⟩ := List.mem_iff_getElem?.mp hx
    have hi : a < (xs i).length := (List.getElem?_eq_some_iff.mp hget).1
    rw [← hb.get i a x hget, decide_eq_true_eq] at hkey
    -- The element was taken, and not in this round.
    have htaken := (lt_position_iff hb hs ha hn hr hi).mpr hkey.le
    have hsame : position key top feed (r + 1) i = position key top feed r i :=
      advance_of_not_chosen fun hchosen => hne (mem_chosen.mp hchosen)
    rw [hsame] at htaken
    obtain ⟨q, -, hq, rfl, hchosen⟩ := exists_round (Nat.zero_le _) (Nat.zero_le _) htaken
    have hlt := least_lt hb hs ha hn hq hr
    rw [← hkey, mem_chosen.mp hchosen] at hlt
    exact lt_irrefl _ hlt

/-- A round takes the elements with its key from all lists. -/
theorem taken_eq_group (hn : 0 < n) {r : ℕ} (hr : r < R) :
    (chosen key top feed (position key top feed r)).map
        (fun i => feed i (position key top feed r i)) =
      group key xs (least key top feed (position key top feed r)) := by
  unfold group chosen
  simp only [filter_of_round hb hs ha hn hr]
  exact (flatMap_ite_singleton _ _ _).symm

theorem least_le_last {r : ℕ} (hr : r < R) {i : Fin n} {x : α} (hx : (xs i).getLast? = some x) :
    least key top feed (position key top feed r) ≤ key x := by
  have hfront := ha r hr i
  rw [List.getLast?_eq_getElem?] at hx
  apply (least_le i).trans
  rcases Nat.lt_or_ge (position key top feed r i) ((xs i).length - 1) with hlt | hge
  · exact ((hs i).lt (hb.getElem? hfront) hx hlt).le
  · have heq : position key top feed r i = (xs i).length - 1 := by omega
    rw [heq, hb.get i _ x hx]

theorem keysUpTo_rounds (hn : 0 < n) {r : ℕ} (hr : r + 1 = R) :
    KeysUpTo key xs (least key top feed (position key top feed r))
      ((List.range R).map fun q => least key top feed (position key top feed q)) := by
  have hlt : r < R := by omega
  constructor
  case increasing =>
    apply List.pairwise_map.mpr
    apply List.Pairwise.imp_of_mem _ List.pairwise_lt_range
    intro p q _ hq hpq
    exact least_lt hb hs ha hn hpq (List.mem_range.mp hq)
  case mem_iff =>
    intro k
    constructor
    · intro hk
      obtain ⟨q, hq, rfl⟩ := List.mem_map.mp hk
      have hqR := List.mem_range.mp hq
      obtain ⟨i, hi⟩ := hb.exists_chosen hn ha hqR
      refine ⟨?_, i, _, hb.mem (ha q hqR i), mem_chosen.mp hi⟩
      rcases Nat.lt_or_ge q r with hqr | hqr
      · exact (least_lt hb hs ha hn hqr hlt).le
      · obtain rfl : q = r := by omega
        exact le_rfl
    · intro hk
      obtain ⟨hle, i, x, hx, rfl⟩ := hk
      obtain ⟨a, hget⟩ := List.mem_iff_getElem?.mp hx
      have hi : a < (xs i).length := (List.getElem?_eq_some_iff.mp hget).1
      obtain rfl := hb.get i a x hget
      have htaken := (lt_position_iff hb hs ha hn hlt hi).mpr hle
      obtain ⟨q, -, hq, rfl, hchosen⟩ := exists_round (Nat.zero_le _) (Nat.zero_le _) htaken
      exact List.mem_map.mpr ⟨q, List.mem_range.mpr (by omega), (mem_chosen.mp hchosen).symm⟩

/-- When a list is used up, the last round had the least of the last keys. -/
theorem isLeast_lastKeys (hn : 0 < n) {r : ℕ} (hr : r + 1 = R) {j : Fin n} (hne : xs j ≠ [])
    (hj : (xs j).length ≤ position key top feed R j) :
    IsLeast (lastKeys key xs) (least key top feed (position key top feed r)) := by
  have hlt : r < R := by omega
  have hpos : 0 < (xs j).length := List.length_pos_iff.mpr hne
  have hlast : (xs j).length - 1 < (xs j).length := by omega
  have hget := hb.getElem? hlast
  rw [← List.getLast?_eq_getElem?] at hget
  constructor
  · have htaken : (xs j).length - 1 < position key top feed (r + 1) j := by
      rw [hr]
      omega
    have hle := (lt_position_iff hb hs ha hn hlt hlast).mp htaken
    exact ⟨j, _, hget, le_antisymm hle (least_le_last hb hs ha hlt hget)⟩
  · intro k hk
    obtain ⟨i, x, hx, rfl⟩ := hk
    exact least_le_last hb hs ha hlt hx

theorem drop_position (hn : 0 < n) {r : ℕ} (hr : r + 1 = R) (i : Fin n) :
    (xs i).drop (position key top feed R i) =
      (xs i).filter fun x => least key top feed (position key top feed r) < key x := by
  have hlt : r < R := by omega
  apply drop_eq_filter
  intro a x hget
  rw [← hr, lt_position_iff hb hs ha hn hlt (List.getElem?_eq_some_iff.mp hget).1,
    hb.get i a x hget]

/-- When a list is used up, the rounds had the keys up to the least last key,
and every list holds what exceeds it. -/
theorem grouping_of_used_up (hn : 0 < n) (hne : ∀ i, xs i ≠ []) {j : Fin n}
    (hj : (xs j).length ≤ position key top feed R j) :
    ∃ M, IsLeast (lastKeys key xs) M ∧
      KeysUpTo key xs M
        ((List.range R).map fun q => least key top feed (position key top feed q)) ∧
      ∀ i, (xs i).drop (position key top feed R i) = (xs i).filter fun x => M < key x := by
  have hsome : R ≠ 0 := by
    intro hR
    rw [hR] at hj
    exact hne j (List.length_eq_zero_iff.mp (Nat.le_zero.mp hj))
  obtain ⟨r, rfl⟩ := Nat.exists_eq_succ_of_ne_zero hsome
  exact ⟨_, isLeast_lastKeys hb hs ha hn rfl (hne j) hj, keysUpTo_rounds hb hs ha hn rfl,
    drop_position hb hs ha hn rfl⟩

end sorted

end StreamMerge
