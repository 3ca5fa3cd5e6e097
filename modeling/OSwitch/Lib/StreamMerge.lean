import Mathlib.Data.Fin.Basic
import Mathlib.Data.Fintype.Order
import Mathlib.Data.List.FinRange
import Mathlib.Data.List.Induction
import Mathlib.Logic.Function.Basic
import Mathlib.Order.Lattice
import Mathlib.Order.Monotone.Basic
import Mathlib.Tactic.Common

/-!
# Round-by-round merge of n streams by least key

In one round the key of every front is compared, and the fronts that carry the
least key are taken together; the other streams keep their front. A stream is
a function of the position, so a merge that has consumed only finitely much
does not depend on what a stream holds later.
-/

namespace StreamMerge
variable {α κ : Type*} [LinearOrder κ] {n : ℕ}

/-! ### The least key of a list, searched from a sentinel -/

def minKey (key : α → κ) (top : κ) (xs : List α) : κ :=
  xs.foldl (fun m x => if key x < m then key x else m) top

theorem minKey_snoc (key : α → κ) (top : κ) (xs : List α) (x : α) :
    minKey key top (xs ++ [x]) =
      if key x < minKey key top xs then key x else minKey key top xs := by
  unfold minKey
  rw [List.foldl_append]
  rfl

theorem minKey_le (key : α → κ) (top : κ) (xs : List α) :
    ∀ x ∈ xs, minKey key top xs ≤ key x := by
  induction xs using List.reverseRecOn with
  | nil =>
    intro x hx
    cases hx
  | append_singleton xs y ih =>
    intro x hx
    rw [minKey_snoc]
    rcases List.mem_append.mp hx with hx | hx
    · have hle := ih x hx
      split
      next h => exact h.le.trans hle
      next => exact hle
    · rw [List.mem_singleton.mp hx]
      split
      next => exact le_rfl
      next h => exact not_lt.mp h

theorem minKey_attained (key : α → κ) (top : κ) (xs : List α) :
    minKey key top xs = top ∨ ∃ x ∈ xs, key x = minKey key top xs := by
  induction xs using List.reverseRecOn with
  | nil => exact .inl rfl
  | append_singleton xs y ih =>
    rw [minKey_snoc]
    split
    next => exact .inr ⟨y, by simp, rfl⟩
    next =>
      rcases ih with ih | ⟨x, hx, he⟩
      · exact .inl ih
      · exact .inr ⟨x, List.mem_append_left _ hx, he⟩

/-! ### Rounds -/

section rounds
variable (key : α → κ) (top : κ) (feed : Fin n → ℕ → α)

def fronts (pos : Fin n → ℕ) : List α := (List.finRange n).map fun i => feed i (pos i)

/-- The least key of the fronts. -/
def least (pos : Fin n → ℕ) : κ := minKey key top (fronts feed pos)

/-- The streams whose front carries the least key, in order. -/
def chosen (pos : Fin n → ℕ) : List (Fin n) :=
  (List.finRange n).filter fun i => key (feed i (pos i)) = least key top feed pos

def advance (pos : Fin n → ℕ) : Fin n → ℕ := fun i =>
  if key (feed i (pos i)) = least key top feed pos then pos i + 1 else pos i

/-- Position of every stream after a number of rounds. -/
def position : ℕ → Fin n → ℕ
  | 0 => fun _ => 0
  | r + 1 => advance key top feed (position r)

end rounds

variable {key : α → κ} {top : κ} {feed : Fin n → ℕ → α} {pos : Fin n → ℕ}

theorem least_le (i : Fin n) : least key top feed pos ≤ key (feed i (pos i)) :=
  minKey_le key top _ _ (List.mem_map.mpr ⟨i, List.mem_finRange i, rfl⟩)

theorem mem_chosen {i : Fin n} :
    i ∈ chosen key top feed pos ↔ key (feed i (pos i)) = least key top feed pos := by
  simp [chosen]

theorem chosen_ne_nil (hn : 0 < n) (htop : ∀ i, key (feed i (pos i)) < top) :
    chosen key top feed pos ≠ [] := by
  have hlt : least key top feed pos < top := (least_le ⟨0, hn⟩).trans_lt (htop _)
  rcases minKey_attained key top (fronts feed pos) with h | ⟨x, hx, he⟩
  · exact absurd h hlt.ne
  · obtain ⟨i, _, rfl⟩ := List.mem_map.mp hx
    exact List.ne_nil_of_mem (mem_chosen.mpr he)

theorem advance_of_chosen {i : Fin n} (h : i ∈ chosen key top feed pos) :
    advance key top feed pos i = pos i + 1 := if_pos (mem_chosen.mp h)

theorem advance_of_not_chosen {i : Fin n} (h : i ∉ chosen key top feed pos) :
    advance key top feed pos i = pos i := if_neg fun he => h (mem_chosen.mpr he)

/-- What is taken has a smaller key than what is left. -/
theorem lt_of_not_chosen {i j : Fin n} (hi : i ∈ chosen key top feed pos)
    (hj : j ∉ chosen key top feed pos) : key (feed i (pos i)) < key (feed j (pos j)) := by
  rw [mem_chosen] at hi hj
  rw [hi]
  exact lt_of_le_of_ne (least_le j) (Ne.symm hj)

theorem le_of_chosen {i : Fin n} (hi : i ∈ chosen key top feed pos) (j : Fin n) :
    key (feed i (pos i)) ≤ key (feed j (pos j)) := by
  rw [mem_chosen.mp hi]
  exact least_le j

theorem position_le_succ (r : ℕ) (i : Fin n) :
    position key top feed r i ≤ position key top feed (r + 1) i := by
  change _ ≤ advance key top feed (position key top feed r) i
  unfold advance
  split <;> omega

theorem position_succ_le (r : ℕ) (i : Fin n) :
    position key top feed (r + 1) i ≤ position key top feed r i + 1 := by
  change advance key top feed (position key top feed r) i ≤ _
  unfold advance
  split <;> omega

theorem position_mono (i : Fin n) : Monotone fun r => position key top feed r i :=
  monotone_nat_of_le_succ fun r => position_le_succ r i

/-! ### A round, stream by stream -/

def firstStreams (n k : ℕ) : List (Fin n) := (List.finRange n).take k

theorem firstStreams_succ (i : Fin n) : firstStreams n (i + 1) = firstStreams n i ++ [i] := by
  unfold firstStreams
  rw [List.take_add_one, List.getElem?_eq_getElem (by simp)]
  simp

theorem firstStreams_all {k : ℕ} (h : n ≤ k) : firstStreams n k = List.finRange n :=
  List.take_of_length_le (by simpa using h)

section partly
variable (key : α → κ) (top : κ) (feed : Fin n → ℕ → α)

/- The streams taken among the first `k`. -/
def chosenAmong (k : ℕ) (pos : Fin n → ℕ) : List (Fin n) :=
  (firstStreams n k).filter fun i => key (feed i (pos i)) = least key top feed pos

/- The positions when the first `k` streams have been dealt with. -/
def advanceUpTo (k : ℕ) (pos : Fin n → ℕ) : Fin n → ℕ := fun i =>
  if i.val < k then advance key top feed pos i else pos i

end partly

theorem chosenAmong_succ {i : Fin n} (h : i ∈ chosen key top feed pos) :
    chosenAmong key top feed (i + 1) pos = chosenAmong key top feed i pos ++ [i] := by
  unfold chosenAmong
  rw [firstStreams_succ, List.filter_append]
  simp [mem_chosen.mp h]

theorem chosenAmong_skip {i : Fin n} (h : i ∉ chosen key top feed pos) :
    chosenAmong key top feed (i + 1) pos = chosenAmong key top feed i pos := by
  unfold chosenAmong
  rw [mem_chosen] at h
  rw [firstStreams_succ, List.filter_append]
  simp [h]

theorem chosenAmong_all {k : ℕ} (h : n ≤ k) :
    chosenAmong key top feed k pos = chosen key top feed pos := by
  unfold chosenAmong
  rw [firstStreams_all h]
  rfl

@[simp] theorem advanceUpTo_zero : advanceUpTo key top feed 0 pos = pos := by
  funext i
  exact if_neg (Nat.not_lt_zero _)

theorem advanceUpTo_self (i : Fin n) : advanceUpTo key top feed i pos i = pos i :=
  if_neg (lt_irrefl _)

theorem advanceUpTo_all {k : ℕ} (h : n ≤ k) :
    advanceUpTo key top feed k pos = advance key top feed pos := by
  funext i
  exact if_pos (i.isLt.trans_le h)

theorem advanceUpTo_succ {i : Fin n} (h : i ∈ chosen key top feed pos) :
    advanceUpTo key top feed (i + 1) pos =
      Function.update (advanceUpTo key top feed i pos) i (pos i + 1) := by
  funext j
  by_cases hj : j = i
  · subst hj
    rw [Function.update_self, advanceUpTo, if_pos (Nat.lt_succ_self _), advance_of_chosen h]
  · rw [Function.update_of_ne hj]
    have hv : j.val ≠ i.val := fun he => hj (Fin.ext he)
    have hlt : j.val < i.val + 1 ↔ j.val < i.val := by omega
    simp only [advanceUpTo, hlt]

theorem advanceUpTo_skip {i : Fin n} (h : i ∉ chosen key top feed pos) :
    advanceUpTo key top feed (i + 1) pos = advanceUpTo key top feed i pos := by
  funext j
  by_cases hj : j = i
  · subst hj
    rw [advanceUpTo_self, advanceUpTo, if_pos (Nat.lt_succ_self _), advance_of_not_chosen h]
  · have hv : j.val ≠ i.val := fun he => hj (Fin.ext he)
    have hlt : j.val < i.val + 1 ↔ j.val < i.val := by omega
    simp only [advanceUpTo, hlt]

/-! ### Streams that agree position by position -/

/-- Streams that carry equal keys at equal positions are taken in lockstep. -/
theorem position_lockstep (htop : ∀ i m, key (feed i m) < top)
    (hsame : ∀ m i j, key (feed i m) = key (feed j m)) (r : ℕ) (i : Fin n) :
    position key top feed r i = r := by
  induction r generalizing i with
  | zero => rfl
  | succ r ih =>
    have hpos : position key top feed r = fun _ => r := funext ih
    have hn : 0 < n := Fin.pos i
    have hne : chosen key top feed (position key top feed r) ≠ [] :=
      chosen_ne_nil hn fun j => htop j _
    obtain ⟨j, hj⟩ := List.exists_mem_of_ne_nil _ hne
    have hi : i ∈ chosen key top feed (position key top feed r) := by
      rw [mem_chosen] at hj ⊢
      rw [← hj, hpos]
      exact hsame r i j
    change advance key top feed (position key top feed r) i = r + 1
    rw [advance_of_chosen hi, ih]

theorem chosen_lockstep (htop : ∀ i m, key (feed i m) < top)
    (hsame : ∀ m i j, key (feed i m) = key (feed j m)) (r : ℕ) :
    chosen key top feed (position key top feed r) = List.finRange n := by
  apply List.filter_eq_self.mpr
  intro i _
  have hadv := position_lockstep htop hsame (r + 1) i
  change advance key top feed (position key top feed r) i = r + 1 at hadv
  have hi : i ∈ chosen key top feed (position key top feed r) := by
    by_contra hno
    rw [advance_of_not_chosen hno, position_lockstep htop hsame r i] at hadv
    omega
  simpa using mem_chosen.mp hi

/- What lies between the positions at two rounds was taken in between, one by one. -/
theorem exists_round {r r' m : ℕ} {i : Fin n} (hr : r ≤ r') (h : position key top feed r i ≤ m)
    (h' : m < position key top feed r' i) :
    ∃ q, r ≤ q ∧ q < r' ∧ position key top feed q i = m ∧
      i ∈ chosen key top feed (position key top feed q) := by
  induction r', hr using Nat.le_induction with
  | base => omega
  | succ r' hr ih =>
    by_cases hlt : m < position key top feed r' i
    · obtain ⟨q, hq, hq', hm, hi⟩ := ih hlt
      exact ⟨q, hq, by omega, hm, hi⟩
    · have hi : i ∈ chosen key top feed (position key top feed r') := by
        by_contra hno
        exact hlt (h'.trans_eq (advance_of_not_chosen hno))
      have hstep : position key top feed (r' + 1) i = position key top feed r' i + 1 :=
        advance_of_chosen hi
      exact ⟨r', hr, by omega, by omega, hi⟩

/-! ### What was taken from one stream -/

/- The entries of stream `i` among these. -/
def entriesOf {β : Type*} (i : Fin n) (xs : List (Fin n × β)) : List β :=
  xs.filterMap fun x => if x.1 = i then some x.2 else none

theorem entriesOf_append {β : Type*} (i : Fin n) (xs ys : List (Fin n × β)) :
    entriesOf i (xs ++ ys) = entriesOf i xs ++ entriesOf i ys := by simp [entriesOf]

theorem entriesOf_map {β : Type*} (i : Fin n) (f : Fin n → β) {is : List (Fin n)} (h : is.Nodup) :
    entriesOf i (is.map fun j => (j, f j)) = if i ∈ is then [f i] else [] := by
  induction is with
  | nil => rfl
  | cons j is ih =>
    obtain ⟨hj, his⟩ := List.nodup_cons.mp h
    have hcons : entriesOf i ((j :: is).map fun j => (j, f j)) =
        (if j = i then [f j] else []) ++ entriesOf i (is.map fun j => (j, f j)) := by
      by_cases hji : j = i <;> simp [entriesOf, hji]
    rw [hcons, ih his]
    by_cases hji : j = i
    · subst hji
      simp [hj]
    · simp [hji, Ne.symm hji]

/-- The rounds take a stream entry by entry, from the first one on. -/
theorem entriesOf_rounds {β : Type*} (label : Fin n → ℕ → β) (i : Fin n) (R : ℕ) :
    entriesOf i ((List.range R).flatMap fun r =>
        (chosen key top feed (position key top feed r)).map fun j =>
          (j, label j (position key top feed r j))) =
      (List.range (position key top feed R i)).map (label i) := by
  induction R with
  | zero => rfl
  | succ R ih =>
    have hnodup : (chosen key top feed (position key top feed R)).Nodup :=
      (List.nodup_finRange n).filter _
    rw [List.range_succ, List.flatMap_append, entriesOf_append, ih, List.flatMap_singleton,
      entriesOf_map i (fun j => label j (position key top feed R j)) hnodup]
    change _ = (List.range (advance key top feed (position key top feed R) i)).map (label i)
    by_cases hi : i ∈ chosen key top feed (position key top feed R)
    · rw [if_pos hi, advance_of_chosen hi, List.range_succ, List.map_append]
      rfl
    · rw [if_neg hi, advance_of_not_chosen hi, List.append_nil]

/-! ### Streams that are served again and again -/

section served
variable (key : α → κ) (top : κ) (feed : Fin n → ℕ → α)

/-- Round `r` or a later one takes the front of stream `i`. -/
def Served (r : ℕ) (i : Fin n) : Prop :=
  ∃ q, r ≤ q ∧ i ∈ chosen key top feed (position key top feed q)

end served

theorem Served.of_le {r r' : ℕ} {i : Fin n} (h : Served key top feed r' i) (hr : r ≤ r') :
    Served key top feed r i := by
  obtain ⟨q, hq, hi⟩ := h
  exact ⟨q, hr.trans hq, hi⟩

theorem position_of_not_served {r r' : ℕ} {i : Fin n} (h : ¬Served key top feed r i)
    (hr : r ≤ r') : position key top feed r' i = position key top feed r i := by
  induction r', hr using Nat.le_induction with
  | base => rfl
  | succ r' hr ih =>
    have hno : i ∉ chosen key top feed (position key top feed r') := fun hi => h ⟨r', hr, hi⟩
    exact (advance_of_not_chosen hno).trans ih

/-- A stream that is not served any more was never served, or some round was
the last one to take it. -/
theorem never_or_last_served {r : ℕ} {i : Fin n} (h : ¬Served key top feed r i) :
    ¬Served key top feed 0 i ∨ ∃ q < r, i ∈ chosen key top feed (position key top feed q) ∧
      ¬Served key top feed (q + 1) i := by
  induction r with
  | zero => exact .inl h
  | succ r ih =>
    by_cases hr : Served key top feed r i
    · obtain ⟨q, hq, hi⟩ := hr
      rcases Nat.eq_or_lt_of_le hq with rfl | hlt
      · exact .inr ⟨r, Nat.lt_succ_self r, hi, h⟩
      · exact absurd ⟨q, hlt, hi⟩ h
    · rcases ih hr with hnever | ⟨q, hq, hlast⟩
      · exact .inl hnever
      · exact .inr ⟨q, Nat.lt_succ_of_lt hq, hlast⟩

/-- Some stream is served without end. -/
theorem exists_served_forever (hn : 0 < n) (htop : ∀ i m, key (feed i m) < top) :
    ∃ i, ∀ r, Served key top feed r i := by
  by_contra h
  have hlast : ∀ i, ∃ r, ¬Served key top feed r i := fun i => by
    by_contra hi
    exact h ⟨i, fun r => by_contra fun hr => hi ⟨r, hr⟩⟩
  choose last hlast using hlast
  obtain ⟨r, hr⟩ := Finite.exists_le last
  have hne : chosen key top feed (position key top feed r) ≠ [] :=
    chosen_ne_nil hn fun i => htop i _
  obtain ⟨i, hi⟩ := List.exists_mem_of_ne_nil _ hne
  exact hlast i ⟨r, hr i, hi⟩

/-- Such a stream is taken in full. -/
theorem exists_taken {i : Fin n} (h : ∀ r, Served key top feed r i) (m : ℕ) :
    ∃ q, position key top feed q i = m ∧ i ∈ chosen key top feed (position key top feed q) := by
  have hfar : ∃ r, m < position key top feed r i := by
    induction m with
    | zero =>
      obtain ⟨q, -, hi⟩ := h 0
      have hpos : position key top feed (q + 1) i = position key top feed q i + 1 :=
        advance_of_chosen hi
      exact ⟨q + 1, by omega⟩
    | succ m ih =>
      obtain ⟨r, hr⟩ := ih
      obtain ⟨q, hq, hi⟩ := h r
      have hpos : position key top feed (q + 1) i = position key top feed q i + 1 :=
        advance_of_chosen hi
      have hmono : position key top feed r i ≤ position key top feed q i := position_mono i hq
      exact ⟨q + 1, by omega⟩
  obtain ⟨r, hr⟩ := hfar
  obtain ⟨q, -, -, hm, hi⟩ := exists_round (Nat.zero_le r) (Nat.zero_le m) hr
  exact ⟨q, hm, hi⟩

/-! ### Keys that label an underlying numbering -/

section ranked
variable {rank : Fin n → ℕ → ℕ} {label : ℕ → κ} {on : Fin n → Prop}

/-- On the fronts of some of the streams, the order of the labels is the order
of the numbers. -/
def Faithful (rank : Fin n → ℕ → ℕ) (label : ℕ → κ) (on : Fin n → Prop) (pos : Fin n → ℕ) : Prop :=
  ∀ i j, on i → on j → rank i (pos i) < rank j (pos j) →
    label (rank i (pos i)) < label (rank j (pos j))

theorem rank_le_of_chosen (hlabel : ∀ i m, key (feed i m) = label (rank i m))
    (hf : Faithful rank label on pos) {i j : Fin n} (hi : i ∈ chosen key top feed pos)
    (hoi : on i) (hoj : on j) : rank i (pos i) ≤ rank j (pos j) := by
  by_contra hlt
  have hkey := hf j i hoj hoi (not_le.mp hlt)
  rw [← hlabel, ← hlabel, mem_chosen.mp hi] at hkey
  exact absurd (least_le j) (not_le.mpr hkey)

/-- The streams taken in a faithful round all show the same number. -/
theorem rank_eq_of_chosen (hlabel : ∀ i m, key (feed i m) = label (rank i m))
    (hf : Faithful rank label on pos) {i j : Fin n} (hi : i ∈ chosen key top feed pos)
    (hj : j ∈ chosen key top feed pos) (hoi : on i) (hoj : on j) :
    rank i (pos i) = rank j (pos j) :=
  le_antisymm (rank_le_of_chosen hlabel hf hi hoi hoj) (rank_le_of_chosen hlabel hf hj hoj hoi)

/-- After a faithful round every front shows a later number than the one taken. -/
theorem rank_lt_advance (hlabel : ∀ i m, key (feed i m) = label (rank i m))
    (hmono : ∀ i, StrictMono (rank i)) (hf : Faithful rank label on pos) {i j : Fin n}
    (hi : i ∈ chosen key top feed pos) (hoi : on i) (hoj : on j) :
    rank i (pos i) < rank j (advance key top feed pos j) := by
  by_cases hj : j ∈ chosen key top feed pos
  · rw [advance_of_chosen hj, rank_eq_of_chosen hlabel hf hi hj hoi hoj]
    exact hmono j (Nat.lt_succ_self _)
  · rw [advance_of_not_chosen hj]
    apply lt_of_le_of_ne (rank_le_of_chosen hlabel hf hi hoi hoj)
    intro he
    apply hj
    rw [mem_chosen, hlabel, ← he, ← hlabel]
    exact mem_chosen.mp hi

/-- What a faithful round takes comes before all that later rounds take. -/
theorem rank_lt_of_rounds (hlabel : ∀ i m, key (feed i m) = label (rank i m))
    (hmono : ∀ i, StrictMono (rank i)) {r r' : ℕ} (hr : r < r')
    (hf : Faithful rank label on (position key top feed r)) {i j : Fin n}
    (hi : i ∈ chosen key top feed (position key top feed r)) (hoi : on i) (hoj : on j) :
    rank i (position key top feed r i) < rank j (position key top feed r' j) := by
  have hstep := rank_lt_advance hlabel hmono hf hi hoi hoj
  exact hstep.trans_le ((hmono j).monotone (position_mono j (Nat.succ_le_of_lt hr)))

end ranked

end StreamMerge
