import Mathlib.Logic.Relation
import Mathlib.Tactic.Common

/-!
# Two kinds of threads in one wait set

`m` threads raise a level and wait while it is at `cap`, `n` threads lower it
and wait while it is 0. All sleep in one set, and whoever changes the level
wakes one sleeper, of either kind. Only the sleepers are counted here, so a
state in which all threads sleep is one that nobody leaves by himself.
-/

namespace SharedWait

structure Counts where
  raisers : ℕ
  lowerers : ℕ
  level : ℕ

/- One sleeper of either kind wakes, or there is none. -/
inductive Wake : ℕ → ℕ → ℕ → ℕ → Prop
  | nobody : Wake 0 0 0 0
  | raiser {a b} : Wake (a + 1) b a b
  | lowerer {a b} : Wake a (b + 1) a b

/- A thread that goes to sleep or changes the level was awake. -/
inductive Step (m n cap : ℕ) : Counts → Counts → Prop
  | raiserSleeps {a b} : a < m → Step m n cap ⟨a, b, cap⟩ ⟨a + 1, b, cap⟩
  | lowererSleeps {a b} : b < n → Step m n cap ⟨a, b, 0⟩ ⟨a, b + 1, 0⟩
  | raise {a b a' b' l} : a < m → l < cap → Wake a b a' b' →
      Step m n cap ⟨a, b, l⟩ ⟨a', b', l + 1⟩
  | lower {a b a' b' l} : b < n → Wake a b a' b' → Step m n cap ⟨a, b, l + 1⟩ ⟨a', b', l⟩
  | raiserWakes {a b l} : Step m n cap ⟨a + 1, b, l⟩ ⟨a, b, l⟩
  | lowererWakes {a b l} : Step m n cap ⟨a, b + 1, l⟩ ⟨a, b, l⟩

abbrev Steps (m n cap : ℕ) : Counts → Counts → Prop := Relation.ReflTransGen (Step m n cap)

def Reachable (m n cap : ℕ) (x : Counts) : Prop := Steps m n cap ⟨0, 0, 0⟩ x

variable {m n cap : ℕ}

/-- Any number of sleepers may wake together. -/
theorem steps_wake {a b a' b' : ℕ} (l : ℕ) (ha : a' ≤ a) (hb : b' ≤ b) :
    Steps m n cap ⟨a, b, l⟩ ⟨a', b', l⟩ := by
  have hraisers : ∀ d, Steps m n cap ⟨a' + d, b, l⟩ ⟨a', b, l⟩ := by
    intro d
    induction d with
    | zero => exact .refl
    | succ d ih => exact .head .raiserWakes ih
  have hlowerers : ∀ d, Steps m n cap ⟨a', b' + d, l⟩ ⟨a', b', l⟩ := by
    intro d
    induction d with
    | zero => exact .refl
    | succ d ih => exact .head .lowererWakes ih
  obtain ⟨d, rfl⟩ := Nat.exists_eq_add_of_le ha
  obtain ⟨d', rfl⟩ := Nat.exists_eq_add_of_le hb
  exact (hraisers d).trans (hlowerers d')

theorem Wake.steps {a b a' b' : ℕ} (h : Wake a b a' b') (l : ℕ) :
    Steps m n cap ⟨a, b, l⟩ ⟨a', b', l⟩ := by
  cases h with
  | nobody => exact .refl
  | raiser => exact .single .raiserWakes
  | lowerer => exact .single .lowererWakes

/-! ### Raising and lowering exchanged -/

def Counts.mirror (cap : ℕ) (x : Counts) : Counts := ⟨x.lowerers, x.raisers, cap - x.level⟩

theorem Wake.mirror {a b a' b' : ℕ} (h : Wake a b a' b') : Wake b a b' a' := by
  cases h with
  | nobody => exact .nobody
  | raiser => exact .lowerer
  | lowerer => exact .raiser

theorem Step.level_le {x y : Counts} (h : Step m n cap x y) (hx : x.level ≤ cap) :
    y.level ≤ cap := by
  cases h with
  | raiserSleeps => exact hx
  | lowererSleeps => exact hx
  | raise _ hl _ => exact hl
  | @lower a b a' b' l => exact Nat.le_trans (Nat.le_succ l) hx
  | raiserWakes => exact hx
  | lowererWakes => exact hx

theorem Step.mirror {x y : Counts} (h : Step m n cap x y) (hx : x.level ≤ cap) :
    Step n m cap (x.mirror cap) (y.mirror cap) := by
  cases h with
  | raiserSleeps ha =>
    simp only [Counts.mirror, Nat.sub_self]
    exact .lowererSleeps ha
  | lowererSleeps hb =>
    simp only [Counts.mirror, Nat.sub_zero]
    exact .raiserSleeps hb
  | @raise a b a' b' l ha hl hw =>
    simp only [Counts.mirror]
    rw [show cap - l = cap - (l + 1) + 1 by omega]
    exact .lower ha hw.mirror
  | @lower a b a' b' l hb hw =>
    have hlevel : l + 1 ≤ cap := hx
    simp only [Counts.mirror]
    rw [show cap - l = cap - (l + 1) + 1 by omega]
    exact .raise hb (by omega) hw.mirror
  | raiserWakes => exact .lowererWakes
  | lowererWakes => exact .raiserWakes

/-! ### Few threads -/

/-- How many can be asleep while there are few raisers: no raiser is when the
level is 0, and beside a sleeping raiser only as many lowerers are as did not
have to wake while the level rose. -/
structure Sparse (m n cap : ℕ) (x : Counts) : Prop where
  raisers_le : x.raisers ≤ m
  lowerers_le : x.lowerers ≤ n
  level_le : x.level ≤ cap
  alone : x.raisers = 0 → x.lowerers = 0 ∨ x.lowerers + x.level ≤ n
  beside : 0 < x.raisers → x.lowerers ≤ n - cap
  room : 0 < x.raisers → x.raisers + x.lowerers + (cap - x.level) ≤ m + (n - cap)

theorem sparse_step (hm : m ≤ cap) (hmn : m + n ≤ 2 * cap) {x y : Counts}
    (h : Sparse m n cap x) (hs : Step m n cap x y) : Sparse m n cap y := by
  obtain ⟨hr, hl, hc, halone, hbeside, hroom⟩ := h
  cases hs with
  | raiserSleeps | lowererSleeps | raiserWakes | lowererWakes =>
    dsimp only at *
    refine ⟨?_, ?_, ?_, ?_, ?_, ?_⟩ <;> dsimp only <;> omega
  | raise _ _ hw | lower _ hw =>
    cases hw with
    | nobody | raiser | lowerer =>
      dsimp only at *
      refine ⟨?_, ?_, ?_, ?_, ?_, ?_⟩ <;> dsimp only <;> omega

theorem sparse_steps (hm : m ≤ cap) (hmn : m + n ≤ 2 * cap) {x y : Counts}
    (hx : Sparse m n cap x) (h : Steps m n cap x y) : Sparse m n cap y := by
  induction h with
  | refl => exact hx
  | tail _ hs ih => exact sparse_step hm hmn ih hs

theorem Sparse.awake {x : Counts} (h : Sparse m n cap x) (hm : m ≤ cap) (hm0 : 0 < m)
    (hn0 : 0 < n) : x.raisers < m ∨ x.lowerers < n := by
  have hbeside := h.beside
  omega

theorem reachable_mirror {x : Counts} (h : Reachable m n cap x) :
    x.level ≤ cap ∧ Steps n m cap ⟨0, 0, cap⟩ (x.mirror cap) := by
  induction h with
  | refl => exact ⟨Nat.zero_le _, .refl⟩
  | tail _ hs ih => exact ⟨hs.level_le ih.1, ih.2.tail (hs.mirror ih.1)⟩

/-- With at most twice as many threads as the level has room, somebody is awake. -/
theorem awake_of_few (hm0 : 0 < m) (hn0 : 0 < n) (hmn : m + n ≤ 2 * cap) {x : Counts}
    (h : Reachable m n cap x) : x.raisers < m ∨ x.lowerers < n := by
  by_cases hm : m ≤ cap
  · have hstart : Sparse m n cap ⟨0, 0, 0⟩ := by
      refine ⟨?_, ?_, ?_, ?_, ?_, ?_⟩ <;> simp
    exact (sparse_steps hm hmn hstart h).awake hm hm0 hn0
  · have hstart : Sparse n m cap ⟨0, 0, cap⟩ := by
      refine ⟨?_, ?_, ?_, ?_, ?_, ?_⟩ <;> simp
    have hsteps := (reachable_mirror h).2
    have hawake := (sparse_steps (by omega) (by omega) hstart hsteps).awake (by omega) hn0 hm0
    exact hawake.symm

/-! ### Many threads -/

theorem steps_raisersSleep {a b : ℕ} (ha : a ≤ m) : Steps m n cap ⟨a, b, cap⟩ ⟨m, b, cap⟩ := by
  obtain ⟨d, hd⟩ := Nat.exists_eq_add_of_le ha
  induction d generalizing a with
  | zero =>
    obtain rfl : m = a := hd
    exact .refl
  | succ d ih => exact .head (.raiserSleeps (by omega)) (ih (by omega) (by omega))

theorem steps_lowerersSleep {a b : ℕ} (hb : b ≤ n) : Steps m n cap ⟨a, b, 0⟩ ⟨a, n, 0⟩ := by
  obtain ⟨d, hd⟩ := Nat.exists_eq_add_of_le hb
  induction d generalizing b with
  | zero =>
    obtain rfl : n = b := hd
    exact .refl
  | succ d ih => exact .head (.lowererSleeps (by omega)) (ih (by omega) (by omega))

/-- A raiser that is awake raises the level, and each time wakes a raiser as
long as one sleeps. -/
theorem steps_raise {a b : ℕ} (ha : a < m) (l d : ℕ) (hl : l + d ≤ cap) :
    Steps m n cap ⟨a, b, l⟩ ⟨a - d, b - (d - a), l + d⟩ := by
  induction d with
  | zero =>
    rw [Nat.zero_sub]
    exact .refl
  | succ d ih =>
    refine (ih (by omega)).tail (.raise (by omega) (by omega) ?_)
    cases ha' : a - d with
    | succ a' =>
      rw [show a - (d + 1) = a' by omega, show d + 1 - a = d - a by omega]
      exact .raiser
    | zero =>
      rw [show a - (d + 1) = 0 by omega]
      cases hb' : b - (d - a) with
      | succ b' =>
        rw [show b - (d + 1 - a) = b' by omega]
        exact .lowerer
      | zero =>
        rw [show b - (d + 1 - a) = 0 by omega]
        exact .nobody

/-- A lowerer that is awake lowers the level, and each time wakes a lowerer as
long as one sleeps. -/
theorem steps_lower {a b : ℕ} (hb : b < n) (l d : ℕ) :
    Steps m n cap ⟨a, b, l + d⟩ ⟨a - (d - b), b - d, l⟩ := by
  induction d generalizing l with
  | zero =>
    rw [Nat.zero_sub]
    exact .refl
  | succ d ih =>
    have hto := ih (l + 1)
    rw [show l + 1 + d = l + (d + 1) by omega] at hto
    refine hto.tail (.lower (by omega) ?_)
    cases hb' : b - d with
    | succ b' =>
      rw [show b - (d + 1) = b' by omega, show d + 1 - b = d - b by omega]
      exact .lowerer
    | zero =>
      rw [show b - (d + 1) = 0 by omega]
      cases ha' : a - (d - b) with
      | succ a' =>
        rw [show a - (d + 1 - b) = a' by omega]
        exact .raiser
      | zero =>
        rw [show a - (d + 1 - b) = 0 by omega]
        exact .nobody

/- Once up and down with the right sleepers woken leaves more raisers asleep
than before. -/
theorem stuck_from (hn0 : 0 < n) (hmn : 2 * cap < m + n) (d : ℕ) : ∀ a, a ≤ m → m - a ≤ d →
    ∃ l, (l = 0 ∨ l = cap) ∧ Steps m n cap ⟨a, n, 0⟩ ⟨m, n, l⟩ := by
  induction d with
  | zero =>
    intro a ha hd
    obtain rfl : a = m := by omega
    exact ⟨0, .inl rfl, .refl⟩
  | succ d ih =>
    intro a ha hd
    rcases Nat.eq_or_lt_of_le ha with rfl | ha
    · exact ⟨0, .inl rfl, .refl⟩
    have hup : Steps m n cap ⟨a, n, 0⟩ ⟨a - cap, n - (cap - a), cap⟩ := by
      simpa using steps_raise (n := n) (b := n) ha 0 cap (by omega)
    have htop := hup.trans (steps_raisersSleep (m := m) (by omega))
    by_cases hfull : cap ≤ a
    · rw [show n - (cap - a) = n by omega] at htop
      exact ⟨cap, .inr rfl, htop⟩
    · have hdown : Steps m n cap ⟨m, n - (cap - a), 0 + cap⟩
          ⟨m - (cap - (n - (cap - a))), n - (cap - a) - cap, 0⟩ := steps_lower (by omega) 0 cap
      rw [Nat.zero_add] at hdown
      have hbottom := (htop.trans hdown).trans (steps_lowerersSleep (n := n) (by omega))
      obtain ⟨l, hl, hrest⟩ := ih (m - (cap - (n - (cap - a)))) (by omega) (by omega)
      exact ⟨l, hl, hbottom.trans hrest⟩

/-- With more threads than that, all can be asleep together. -/
theorem all_asleep_of_many (hn0 : 0 < n) (hmn : 2 * cap < m + n) :
    ∃ l, (l = 0 ∨ l = cap) ∧ Reachable m n cap ⟨m, n, l⟩ := by
  obtain ⟨l, hl, h⟩ := stuck_from (m := m) hn0 hmn m 0 (by omega) (by omega)
  exact ⟨l, hl, (steps_lowerersSleep (by omega)).trans h⟩

/-! ### All asleep although somebody could go on -/

structure Stuck (m n cap : ℕ) (x : Counts) : Prop where
  raisers : x.raisers = m
  lowerers : x.lowerers = n
  able : (0 < m ∧ x.level < cap) ∨ (0 < n ∧ 0 < x.level)

/- Without lowerers a raiser sleeps only at the top, for good. -/
theorem level_of_no_lowerers {x : Counts} (h : Reachable m 0 cap x) :
    0 < x.raisers → x.level = cap := by
  induction h with
  | refl =>
    intro hpos
    exact absurd hpos (Nat.lt_irrefl 0)
  | tail _ hs ih =>
    cases hs with
    | raiserSleeps | lowererSleeps hb | lower hb | lowererWakes | raiserWakes =>
      dsimp only at *
      omega
    | raise _ _ hw =>
      cases hw with
      | nobody | raiser | lowerer =>
        dsimp only at *
        omega

theorem level_of_no_raisers {x : Counts} (h : Reachable 0 n cap x) :
    0 < x.lowerers → x.level = 0 := by
  induction h with
  | refl =>
    intro _
    rfl
  | tail _ hs ih =>
    cases hs with
    | raiserSleeps ha | lowererSleeps | raise ha | lowererWakes | raiserWakes =>
      dsimp only at *
      omega
    | lower _ hw =>
      cases hw with
      | nobody | raiser | lowerer =>
        dsimp only at *
        omega

/-- The threads can all get stuck iff both kinds are there and together are
more than twice the room. -/
theorem exists_stuck_iff (hcap : 0 < cap) :
    (∃ x, Reachable m n cap x ∧ Stuck m n cap x) ↔ 0 < m ∧ 0 < n ∧ 2 * cap < m + n := by
  constructor
  · rintro ⟨x, hx, hm, hn, hable⟩
    have hm0 : 0 < m := by
      by_contra hno
      obtain rfl : m = 0 := by omega
      have hlevel := level_of_no_raisers hx
      omega
    have hn0 : 0 < n := by
      by_contra hno
      obtain rfl : n = 0 := by omega
      have hlevel := level_of_no_lowerers hx
      omega
    refine ⟨hm0, hn0, ?_⟩
    by_contra hfew
    have hawake := awake_of_few hm0 hn0 (Nat.le_of_not_lt hfew) hx
    omega
  · rintro ⟨hm0, hn0, hmany⟩
    obtain ⟨l, hl, hx⟩ := all_asleep_of_many hn0 hmany
    refine ⟨_, hx, rfl, rfl, ?_⟩
    dsimp only
    omega

end SharedWait
