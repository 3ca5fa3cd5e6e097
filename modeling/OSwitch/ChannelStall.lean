import OSwitch.Channel
import OSwitch.Lib.SharedWait

/-!
# When the channel loses a wake-up

`put` and `next` wait on one condition variable, and each wakes one sleeper,
which may be a thread of its own kind with nothing to do. Counting the sleepers
of each kind makes of the channel the two kinds of threads of `SharedWait`, and
of every such count a state of the channel.
-/

namespace OSwitch.Channel
open Trace Monitor SharedWait

variable {α P C : Type*} [DecidableEq P] [DecidableEq C]

/-- All threads sleep, nobody owes a signal, and still a producer has room or a
consumer has a value. -/
def Stalled (maxLength : ℕ) (s : ChannelState α P C) : Prop :=
  (∀ j, ∃ op, s.thread j = .asleep op) ∧
    ((s.shared.buffer.length < maxLength ∧ ∃ i val, s.thread (.inl i) = .asleep (.put val)) ∨
      (s.shared.buffer ≠ [] ∧ ∃ i, s.thread (.inr i) = .asleep .next))

/- The same threads, but nobody closes. -/
def openRole (j : P ⊕ C) (op : Op α) : Prop := role j op ∧ op ≠ .close

def openSystem (maxLength : ℕ) : Lts (ChannelState α P C) (ChannelEvent α P C) :=
  Monitor.system (spec maxLength) openRole {}

/-! ### Sleepers of each kind -/

section counts
variable [Fintype P] [Fintype C]

/- The sleeping producers and consumers. -/
def asleepIn (t : P ⊕ C → Thread (Op α)) : ℕ × ℕ :=
  (sleepers fun i => t (.inl i), sleepers fun i => t (.inr i))

def counts (s : ChannelState α P C) : Counts :=
  ⟨(asleepIn s.thread).1, (asleepIn s.thread).2, s.shared.buffer.length⟩

theorem asleepIn_inl (t : P ⊕ C → Thread (Op α)) (i : P) (u : Thread (Op α)) :
    (asleepIn (Function.update t (.inl i) u)).1 + (t (.inl i)).isAsleep.toNat =
        (asleepIn t).1 + u.isAsleep.toNat ∧
      (asleepIn (Function.update t (.inl i) u)).2 = (asleepIn t).2 := by
  have hinl : (fun k => Function.update t (.inl i) u (.inl k)) =
      Function.update (fun k => t (.inl k)) i u := Sum.update_inl_comp_inl
  constructor
  · simp only [asleepIn, hinl]
    exact sleepers_update _ i u
  · simp [asleepIn]

theorem asleepIn_inr (t : P ⊕ C → Thread (Op α)) (i : C) (u : Thread (Op α)) :
    (asleepIn (Function.update t (.inr i) u)).2 + (t (.inr i)).isAsleep.toNat =
        (asleepIn t).2 + u.isAsleep.toNat ∧
      (asleepIn (Function.update t (.inr i) u)).1 = (asleepIn t).1 := by
  have hinr : (fun k => Function.update t (.inr i) u (.inr k)) =
      Function.update (fun k => t (.inr k)) i u := Sum.update_inr_comp_inr
  constructor
  · simp only [asleepIn, hinr]
    exact sleepers_update _ i u
  · simp [asleepIn]

/- A thread that sleeps neither before nor afterwards. -/
theorem asleepIn_awake {t : P ⊕ C → Thread (Op α)} {j : P ⊕ C} {u : Thread (Op α)}
    (hj : (t j).isAsleep = false) (hu : u.isAsleep = false) :
    asleepIn (Function.update t j u) = asleepIn t := by
  cases j with
  | inl i =>
    obtain ⟨hfst, hsnd⟩ := asleepIn_inl t i u
    rw [hj, hu] at hfst
    exact Prod.ext hfst hsnd
  | inr i =>
    obtain ⟨hsnd, hfst⟩ := asleepIn_inr t i u
    rw [hj, hu] at hsnd
    exact Prod.ext hfst hsnd

theorem asleepIn_sleep_inl {t : P ⊕ C → Thread (Op α)} {i : P} (h : (t (.inl i)).isAsleep = false)
    (op : Op α) :
    asleepIn (Function.update t (.inl i) (.asleep op)) = ((asleepIn t).1 + 1, (asleepIn t).2) := by
  obtain ⟨hone, hsame⟩ := asleepIn_inl t i (.asleep op)
  rw [h] at hone
  exact Prod.ext hone hsame

theorem asleepIn_sleep_inr {t : P ⊕ C → Thread (Op α)} {i : C} (h : (t (.inr i)).isAsleep = false)
    (op : Op α) :
    asleepIn (Function.update t (.inr i) (.asleep op)) = ((asleepIn t).1, (asleepIn t).2 + 1) := by
  obtain ⟨hone, hsame⟩ := asleepIn_inr t i (.asleep op)
  rw [h] at hone
  exact Prod.ext hsame hone

theorem asleepIn_wake_inl {t : P ⊕ C → Thread (Op α)} {i : P} {op : Op α}
    (h : t (.inl i) = .asleep op) :
    asleepIn t = ((asleepIn (Function.update t (.inl i) (.ready op))).1 + 1,
      (asleepIn (Function.update t (.inl i) (.ready op))).2) := by
  obtain ⟨hone, hsame⟩ := asleepIn_inl t i (.ready op)
  rw [h] at hone
  exact Prod.ext hone.symm hsame.symm

theorem asleepIn_wake_inr {t : P ⊕ C → Thread (Op α)} {i : C} {op : Op α}
    (h : t (.inr i) = .asleep op) :
    asleepIn t = ((asleepIn (Function.update t (.inr i) (.ready op))).1,
      (asleepIn (Function.update t (.inr i) (.ready op))).2 + 1) := by
  obtain ⟨hone, hsame⟩ := asleepIn_inr t i (.ready op)
  rw [h] at hone
  exact Prod.ext hsame.symm hone.symm

/-- `notify_one` on the threads is a wake-up on the counts. -/
theorem wake_of_wakes {t t' : P ⊕ C → Thread (Op α)} (h : Wakes .one t t') :
    Wake (asleepIn t).1 (asleepIn t).2 (asleepIn t').1 (asleepIn t').2 := by
  cases h with
  | nobody hno =>
    have hnone : ∀ j, (t j).isAsleep = false := by
      intro j
      rw [← Bool.not_eq_true, isAsleep_iff]
      rintro ⟨op, hop⟩
      exact hno j op hop
    have hzero : asleepIn t = (0, 0) := by simp [asleepIn, sleepers, hnone]
    rw [hzero]
    exact .nobody
  | @one _ j op hj =>
    cases j with
    | inl i =>
      rw [asleepIn_wake_inl hj]
      exact .raiser
    | inr i =>
      rw [asleepIn_wake_inr hj]
      exact .lowerer

/-- Whichever kind of sleeper wakes on the counts, `notify_one` can wake it. -/
theorem exists_wakes_of_wake {t : P ⊕ C → Thread (Op α)} {a b a' b' : ℕ} (ht : asleepIn t = (a, b))
    (h : Wake a b a' b') : ∃ t', Wakes .one t t' ∧ asleepIn t' = (a', b') := by
  have hfst : sleepers (fun i => t (.inl i)) = a := congrArg Prod.fst ht
  have hsnd : sleepers (fun i => t (.inr i)) = b := congrArg Prod.snd ht
  cases h with
  | nobody =>
    refine ⟨t, .nobody fun j op hj => ?_, ht⟩
    cases j with
    | inl i =>
      have hpos := (sleepers_pos (t := fun i => t (.inl i))).mpr ⟨i, op, hj⟩
      omega
    | inr i =>
      have hpos := (sleepers_pos (t := fun i => t (.inr i))).mpr ⟨i, op, hj⟩
      omega
  | raiser =>
    obtain ⟨i, op, hi⟩ := (sleepers_pos (t := fun i => t (.inl i))).mp (by omega)
    refine ⟨_, .one hi, ?_⟩
    rw [asleepIn_wake_inl hi] at ht
    simpa [Prod.ext_iff] using ht
  | lowerer =>
    obtain ⟨i, op, hi⟩ := (sleepers_pos (t := fun i => t (.inr i))).mp (by omega)
    refine ⟨_, .one hi, ?_⟩
    rw [asleepIn_wake_inr hi] at ht
    simpa [Prod.ext_iff] using ht

/-! ### Every step of the channel on the counts -/

variable {maxLength : ℕ}

theorem guard_put (val : α) {ch : Chan α} :
    (spec maxLength).guard (.put val) ch = true ↔ ch.buffer.length < maxLength := by simp [spec]

theorem guard_next {ch : Chan α} (h : (spec maxLength).guard .next ch = false) :
    ch.buffer = [] := by
  cases hb : ch.buffer with
  | nil => rfl
  | cons val rest => simp [spec, hb] at h

/- A producer that finds no room or a consumer that finds nothing. -/
theorem counts_sleep {s : ChannelState α P C} (hbound : s.shared.buffer.length ≤ maxLength)
    {j : P ⊕ C} {op : Op α} (hrole : role j op) (hj : s.thread j = .ready op)
    (hg : (spec maxLength).guard op s.shared = false) :
    Steps (Fintype.card P) (Fintype.card C) maxLength (counts s)
      (counts ⟨s.shared, Function.update s.thread j (.asleep op)⟩) := by
  have hawake : (s.thread j).isAsleep = false := by rw [hj]; rfl
  cases j with
  | inl i =>
    cases op with
    | next => exact hrole.elim
    | close => cases hg
    | put val =>
      have hfull : s.shared.buffer.length = maxLength := by
        have hno : ¬s.shared.buffer.length < maxLength := by
          rw [← guard_put val, hg]
          simp
        omega
      have hlt : (asleepIn s.thread).1 < Fintype.card P := sleepers_lt hawake
      simp only [counts, asleepIn_sleep_inl hawake, hfull]
      exact .single (.raiserSleeps hlt)
  | inr i =>
    cases op with
    | put => exact hrole.elim
    | close => cases hg
    | next =>
      have hempty := guard_next hg
      have hlt : (asleepIn s.thread).2 < Fintype.card C := sleepers_lt hawake
      simp only [counts, asleepIn_sleep_inr hawake, hempty, List.length_nil]
      exact .single (.lowererSleeps hlt)

omit [DecidableEq P] [DecidableEq C] in
/- `close` wakes everybody. -/
theorem counts_woken (s : ChannelState α P C) (ch : Chan α) (t : P ⊕ C → Thread (Op α))
    (hlen : ch.buffer = s.shared.buffer) :
    Steps (Fintype.card P) (Fintype.card C) maxLength (counts s) (counts ⟨ch, fun j => (t j).wake⟩) := by
  have hnone : asleepIn (fun j => (t j).wake) = (0, 0) := by
    have hwoken : ∀ j, (t j).wake.isAsleep = false := by
      intro j
      cases t j <;> rfl
    simp [asleepIn, sleepers, hwoken]
  simp only [counts, hnone, hlen]
  exact steps_wake _ (Nat.zero_le _) (Nat.zero_le _)

theorem counts_act {s : ChannelState α P C} {j : P ⊕ C} {op : Op α} (hrole : role j op)
    (hj : s.thread j = .ready op) (hg : (spec maxLength).guard op s.shared = true)
    {t : P ⊕ C → Thread (Op α)}
    (hw : Wakes ((spec maxLength).signal op s.shared) (Function.update s.thread j .idle) t) :
    Steps (Fintype.card P) (Fintype.card C) maxLength (counts s)
      (counts ⟨((spec maxLength).act op s.shared).1, t⟩) := by
  have hawake : (s.thread j).isAsleep = false := by rw [hj]; rfl
  have hidle : asleepIn (Function.update s.thread j .idle) = asleepIn s.thread :=
    asleepIn_awake hawake rfl
  cases op with
  | close =>
    cases hw
    exact counts_woken s _ _ rfl
  | put val =>
    have hwake := wake_of_wakes hw
    rw [hidle] at hwake
    cases j with
    | inr i => exact hrole.elim
    | inl i =>
      have hlt : (asleepIn s.thread).1 < Fintype.card P := sleepers_lt hawake
      have hraise := SharedWait.Step.raise (n := Fintype.card C) hlt ((guard_put val).mp hg) hwake
      simpa [counts, spec] using Relation.ReflTransGen.single hraise
  | next =>
    cases j with
    | inl i => exact hrole.elim
    | inr i =>
      rcases act_next hg with ⟨hempty, -, hact⟩ | ⟨val, rest, hbuf, hact⟩
      · have hsilent : (spec maxLength).signal .next s.shared = .none := by simp [spec, hempty]
        rw [hsilent] at hw
        cases hw
        simp only [counts, hact, hidle]
        exact .refl
      · have hone : (spec maxLength).signal .next s.shared = .one := by simp [spec, hbuf]
        rw [hone] at hw
        have hwake := wake_of_wakes hw
        rw [hidle] at hwake
        have hlt : (asleepIn s.thread).2 < Fintype.card C := sleepers_lt hawake
        have hlower : SharedWait.Step (Fintype.card P) (Fintype.card C) maxLength
            ⟨_, _, rest.length + 1⟩ ⟨_, _, rest.length⟩ := .lower hlt hwake
        simpa [counts, hact, hbuf] using Relation.ReflTransGen.single hlower

theorem counts_step {tr : List (ChannelEvent α P C)} {s s' : ChannelState α P C}
    {e : ChannelEvent α P C} (h : (system maxLength).Run tr s)
    (he : Monitor.Step (spec maxLength) role s e s') :
    Steps (Fintype.card P) (Fintype.card C) maxLength (counts s) (counts s') := by
  have hrole := may_of_pending h
  cases he with
  | @call j op hi _ =>
    have hawake : (s.thread j).isAsleep = false := by rw [hi]; rfl
    have hsame : asleepIn (Function.update s.thread j (.ready op)) = asleepIn s.thread :=
      asleepIn_awake hawake rfl
    simp only [counts, hsame]
    exact .refl
  | sleep hi hg => exact counts_sleep (run_sound h).bounded (hrole _ _ (.inl hi)) hi hg
  | act hi hg _ hw => exact counts_act (hrole _ _ (.inl hi)) hi hg hw
  | actLate _ _ hl => cases hl
  | @signal i sig t hi =>
    -- Nobody owes a signal: all operations signal before they return.
    have hno := idle_or_pending (fun _ => rfl) h i
    rw [hi] at hno
    simp [Thread.Pending] at hno
  | spurious hi => exact (wake_of_wakes (.one hi)).steps _

/-- In every run the counts are a state of the shared wait set. -/
theorem reachable_counts {tr : List (ChannelEvent α P C)} {s : ChannelState α P C}
    (h : (system maxLength).Run tr s) :
    Reachable (Fintype.card P) (Fintype.card C) maxLength (counts s) := by
  induction h with
  | init hi =>
    cases hi
    have hnone : sleepers (fun _ : P => (Thread.idle : Thread (Op α))) = 0 := by
      simp [sleepers, Thread.isAsleep]
    have hnone' : sleepers (fun _ : C => (Thread.idle : Thread (Op α))) = 0 := by
      simp [sleepers, Thread.isAsleep]
    simp only [counts, asleepIn, hnone, hnone']
    exact .refl
  | snoc hr he ih => exact ih.trans (counts_step hr he)

/-! ### Every step of the counts in the channel -/

omit [Fintype P] [Fintype C] in
theorem not_closed {tr : List (ChannelEvent α P C)} {s : ChannelState α P C}
    (h : (openSystem maxLength).Run tr s) : s.shared.closed = false := by
  induction h with
  | init hi =>
    cases hi
    rfl
  | @snoc tr s e s' hr he ih =>
    rcases step_cases he with ⟨-, hsame⟩ | ⟨j, op, -, hj, hg, hact⟩
    · rw [hsame]
      exact ih
    · rw [hact]
      cases op with
      | close => exact absurd rfl (may_of_pending hr _ _ (.inl hj)).2
      | put val => exact ih
      | next =>
        rcases act_next hg with ⟨-, hclosed, -⟩ | ⟨val, rest, -, hnext⟩
        · rw [ih] at hclosed
          cases hclosed
        · rw [hnext]
          exact ih

/- A thread that is awake comes to the guard of one of its operations. -/
theorem exists_ready {tr : List (ChannelEvent α P C)} {s : ChannelState α P C}
    (h : (openSystem maxLength).Run tr s) {j : P ⊕ C} (hj : (s.thread j).isAsleep = false)
    (op : Op α) (hrole : openRole j op) :
    ∃ tr' s' op', (openSystem maxLength).Run tr' s' ∧ s'.thread j = .ready op' ∧
      openRole j op' ∧ s'.shared = s.shared ∧ asleepIn s'.thread = asleepIn s.thread := by
  rcases idle_or_pending (fun _ => rfl) h j with hidle | ⟨op', hready | hasleep⟩
  · refine ⟨_, _, op, h.snoc (show Monitor.Step _ _ s (.call j op) _ from .call hidle hrole),
      Function.update_self .., hrole, rfl, asleepIn_awake hj rfl⟩
  · exact ⟨tr, s, op', h, hready, may_of_pending h _ _ (.inl hready), rfl, rfl⟩
  · rw [hasleep] at hj
    cases hj

/- A producer at the guard of `put`, a consumer at the guard of `next`. -/
theorem exists_putting (val : α) {tr : List (ChannelEvent α P C)} {s : ChannelState α P C}
    (h : (openSystem maxLength).Run tr s) (ha : (asleepIn s.thread).1 < Fintype.card P) :
    ∃ (tr' : List (ChannelEvent α P C)) (s' : ChannelState α P C) (i : P) (val' : α),
      (openSystem maxLength).Run tr' s' ∧ s'.thread (.inl i) = .ready (.put val') ∧
      s'.shared = s.shared ∧ asleepIn s'.thread = asleepIn s.thread := by
  obtain ⟨i, hi⟩ := exists_awake (t := fun i => s.thread (.inl i)) ha
  obtain ⟨tr', s', op, hr, hready, ⟨hrole, hopen⟩, hshared, hsame⟩ :=
    exists_ready h hi (.put val) ⟨trivial, by simp⟩
  cases op with
  | put val' => exact ⟨tr', s', i, val', hr, hready, hshared, hsame⟩
  | next => exact hrole.elim
  | close => exact absurd rfl hopen

theorem exists_taking {tr : List (ChannelEvent α P C)} {s : ChannelState α P C}
    (h : (openSystem maxLength).Run tr s) (hb : (asleepIn s.thread).2 < Fintype.card C) :
    ∃ (tr' : List (ChannelEvent α P C)) (s' : ChannelState α P C) (i : C),
      (openSystem maxLength).Run tr' s' ∧ s'.thread (.inr i) = .ready .next ∧
      s'.shared = s.shared ∧ asleepIn s'.thread = asleepIn s.thread := by
  obtain ⟨i, hi⟩ := exists_awake (t := fun i => s.thread (.inr i)) hb
  obtain ⟨tr', s', op, hr, hready, ⟨hrole, hopen⟩, hshared, hsame⟩ :=
    exists_ready h hi .next ⟨trivial, by simp⟩
  cases op with
  | next => exact ⟨tr', s', i, hr, hready, hshared, hsame⟩
  | put => exact hrole.elim
  | close => exact absurd rfl hopen

/-- What the counts can do, threads of the channel can do. -/
theorem exists_of_step (val : α) {tr : List (ChannelEvent α P C)} {s : ChannelState α P C}
    (h : (openSystem maxLength).Run tr s) {y : Counts}
    (hy : SharedWait.Step (Fintype.card P) (Fintype.card C) maxLength (counts s) y) :
    ∃ (tr' : List (ChannelEvent α P C)) (s' : ChannelState α P C),
      (openSystem maxLength).Run tr' s' ∧ counts s' = y := by
  generalize hx : counts s = x at hy
  cases hy with
  | @raiserSleeps a b ha =>
    obtain ⟨rfl, rfl, hlevel⟩ := Counts.mk.inj hx
    obtain ⟨tr', s', i, val', hr, hready, hshared, hsame⟩ := exists_putting val h ha
    have hawake : (s'.thread (.inl i)).isAsleep = false := by rw [hready]; rfl
    have hfull : (spec maxLength).guard (.put val') s'.shared = false := by
      rw [hshared, ← Bool.not_eq_true, guard_put, hlevel]
      exact Nat.lt_irrefl _
    refine ⟨_, _, hr.snoc (show Monitor.Step _ _ s' (.sleep _ _) _ from .sleep hready hfull), ?_⟩
    simp only [counts, asleepIn_sleep_inl hawake, hsame, hshared, hlevel]
  | @lowererSleeps a b hb =>
    obtain ⟨rfl, rfl, hlevel⟩ := Counts.mk.inj hx
    obtain ⟨tr', s', i, hr, hready, hshared, hsame⟩ := exists_taking h hb
    have hawake : (s'.thread (.inr i)).isAsleep = false := by rw [hready]; rfl
    have hempty : (spec maxLength).guard .next s'.shared = false := by
      simp [spec, not_closed h, hshared, List.eq_nil_of_length_eq_zero hlevel]
    refine ⟨_, _, hr.snoc (show Monitor.Step _ _ s' (.sleep _ _) _ from .sleep hready hempty), ?_⟩
    simp only [counts, asleepIn_sleep_inr hawake, hsame, hshared, hlevel]
  | @raise a b a' b' l ha hl hw =>
    obtain ⟨rfl, rfl, hlevel⟩ := Counts.mk.inj hx
    obtain ⟨tr', s', i, val', hr, hready, hshared, hsame⟩ := exists_putting val h ha
    have hawake : (s'.thread (.inl i)).isAsleep = false := by rw [hready]; rfl
    have hroom : (spec maxLength).guard (.put val') s'.shared = true := by
      rw [guard_put, hshared, hlevel]
      exact hl
    obtain ⟨t, hwakes, ht⟩ := exists_wakes_of_wake
      ((asleepIn_awake (u := .idle) hawake rfl).trans hsame) hw
    refine ⟨_, _, hr.snoc (show Monitor.Step _ _ s' (.done _ _ _) _ from
      .act hready hroom rfl hwakes), ?_⟩
    simp [counts, ht, spec, hshared, hlevel]
  | @lower a b a' b' l hb hw =>
    obtain ⟨rfl, rfl, hlevel⟩ := Counts.mk.inj hx
    obtain ⟨tr', s', i, hr, hready, hshared, hsame⟩ := exists_taking h hb
    have hawake : (s'.thread (.inr i)).isAsleep = false := by rw [hready]; rfl
    obtain ⟨v, rest, hbuf⟩ := List.exists_cons_of_length_eq_add_one (hshared ▸ hlevel)
    have hvalue : (spec maxLength).guard .next s'.shared = true := by simp [spec, hbuf]
    obtain ⟨t, hwakes, ht⟩ := exists_wakes_of_wake
      ((asleepIn_awake (u := .idle) hawake rfl).trans hsame) hw
    have hone : (spec maxLength).signal .next s'.shared = .one := by simp [spec, hbuf]
    rw [← hone] at hwakes
    refine ⟨_, _, hr.snoc (show Monitor.Step _ _ s' (.done _ _ _) _ from
      .act hready hvalue rfl hwakes), ?_⟩
    rw [← hshared, hbuf, List.length_cons, Nat.add_right_cancel_iff] at hlevel
    simp [counts, ht, spec, hbuf, hlevel]
  | @raiserWakes a b l =>
    obtain ⟨hfst, hsnd, rfl⟩ := Counts.mk.inj hx
    obtain ⟨i, op, hi⟩ := (sleepers_pos (t := fun i => s.thread (.inl i))).mp (by
      change 0 < (asleepIn s.thread).1
      omega)
    refine ⟨_, _, h.snoc (show Monitor.Step _ _ s (.spurious _) _ from .spurious hi), ?_⟩
    rw [asleepIn_wake_inl hi] at hfst hsnd
    simpa [counts, ← hsnd] using hfst
  | @lowererWakes a b l =>
    obtain ⟨hfst, hsnd, rfl⟩ := Counts.mk.inj hx
    obtain ⟨i, op, hi⟩ := (sleepers_pos (t := fun i => s.thread (.inr i))).mp (by
      change 0 < (asleepIn s.thread).2
      omega)
    refine ⟨_, _, h.snoc (show Monitor.Step _ _ s (.spurious _) _ from .spurious hi), ?_⟩
    rw [asleepIn_wake_inr hi] at hfst hsnd
    simpa [counts, ← hfst] using hsnd

theorem exists_of_reachable (val : α) {x : Counts}
    (hx : Reachable (Fintype.card P) (Fintype.card C) maxLength x) :
    ∃ (tr : List (ChannelEvent α P C)) (s : ChannelState α P C),
      (openSystem maxLength).Run tr s ∧ counts s = x := by
  induction hx with
  | refl =>
    refine ⟨[], _, .init rfl, ?_⟩
    simp [counts, asleepIn, sleepers, Thread.isAsleep]
  | tail _ hs ih =>
    obtain ⟨tr, s, h, rfl⟩ := ih
    exact exists_of_step val h hs

/-! ### Stalled and stuck -/

omit [DecidableEq P] [DecidableEq C] in
theorem stuck_of_stalled {s : ChannelState α P C} (h : Stalled maxLength s) :
    Stuck (Fintype.card P) (Fintype.card C) maxLength (counts s) := by
  obtain ⟨hall, hable⟩ := h
  refine ⟨sleepers_eq_card fun i => isAsleep_iff.mpr (hall (.inl i)),
    sleepers_eq_card fun i => isAsleep_iff.mpr (hall (.inr i)), ?_⟩
  rcases hable with ⟨hroom, i, val, -⟩ | ⟨hvalue, i, -⟩
  · exact .inl ⟨Fintype.card_pos_iff.mpr ⟨i⟩, hroom⟩
  · exact .inr ⟨Fintype.card_pos_iff.mpr ⟨i⟩, List.length_pos_iff.mpr hvalue⟩

theorem stalled_of_stuck {tr : List (ChannelEvent α P C)} {s : ChannelState α P C}
    (h : (openSystem maxLength).Run tr s)
    (hs : Stuck (Fintype.card P) (Fintype.card C) maxLength (counts s)) : Stalled maxLength s := by
  have hall : ∀ j, ∃ op, s.thread j = .asleep op := by
    intro j
    cases j with
    | inl i => exact all_asleep (t := fun i => s.thread (.inl i)) hs.raisers i
    | inr i => exact all_asleep (t := fun i => s.thread (.inr i)) hs.lowerers i
  refine ⟨hall, ?_⟩
  rcases hs.able with ⟨hpos, hroom⟩ | ⟨hpos, hvalue⟩
  · obtain ⟨i⟩ := Fintype.card_pos_iff.mp hpos
    obtain ⟨op, hop⟩ := hall (.inl i)
    obtain ⟨hrole, hopen⟩ := may_of_pending h _ _ (.inr hop)
    cases op with
    | put val => exact .inl ⟨hroom, i, val, hop⟩
    | next => exact hrole.elim
    | close => exact absurd rfl hopen
  · obtain ⟨i⟩ := Fintype.card_pos_iff.mp hpos
    obtain ⟨op, hop⟩ := hall (.inr i)
    obtain ⟨hrole, hopen⟩ := may_of_pending h _ _ (.inr hop)
    cases op with
    | next => exact .inr ⟨List.length_pos_iff.mp hvalue, i, hop⟩
    | put => exact hrole.elim
    | close => exact absurd rfl hopen

/-- No run stalls iff there is only one kind of threads or at most twice as many
threads as the buffer has room, whether the channel may be closed or not. -/
theorem never_stalls_iff [Nonempty α] (hlen : 1 ≤ maxLength) :
    ((∀ tr (s : ChannelState α P C), (openSystem maxLength).Run tr s → ¬Stalled maxLength s) ↔
      Fintype.card P = 0 ∨ Fintype.card C = 0 ∨ Fintype.card P + Fintype.card C ≤ 2 * maxLength) ∧
    ((∀ tr (s : ChannelState α P C), (system maxLength).Run tr s → ¬Stalled maxLength s) ↔
      Fintype.card P = 0 ∨ Fintype.card C = 0 ∨
        Fintype.card P + Fintype.card C ≤ 2 * maxLength) := by
  have hstuck := exists_stuck_iff (m := Fintype.card P) (n := Fintype.card C) hlen
  have hopen : (∀ tr (s : ChannelState α P C), (system maxLength).Run tr s →
      ¬Stalled maxLength s) → ∀ tr (s : ChannelState α P C), (openSystem maxLength).Run tr s →
      ¬Stalled maxLength s := fun hall tr s h => hall tr s (run_of_may (fun _ _ hr => hr.1) h)
  have hfew : (∀ tr (s : ChannelState α P C), (openSystem maxLength).Run tr s →
      ¬Stalled maxLength s) → Fintype.card P = 0 ∨ Fintype.card C = 0 ∨
        Fintype.card P + Fintype.card C ≤ 2 * maxLength := by
    intro hall
    by_contra hmany
    obtain ⟨x, hx, hstuck⟩ := hstuck.mpr (by omega)
    obtain ⟨val⟩ := ‹Nonempty α›
    obtain ⟨tr, s, h, rfl⟩ := exists_of_reachable val hx
    exact hall tr s h (stalled_of_stuck h hstuck)
  have hnever : Fintype.card P = 0 ∨ Fintype.card C = 0 ∨
      Fintype.card P + Fintype.card C ≤ 2 * maxLength → ∀ tr (s : ChannelState α P C),
      (system maxLength).Run tr s → ¬Stalled maxLength s := by
    intro hcond tr s h hs
    have hmany := hstuck.mp ⟨_, reachable_counts h, stuck_of_stalled hs⟩
    omega
  exact ⟨⟨hfew, fun hcond => hopen (hnever hcond)⟩, ⟨fun hall => hfew (hopen hall), hnever⟩⟩

/- Ten producers and ten consumers share the default channel without stalling,
an eleventh producer is one thread too many. -/
theorem never_stalls_default :
    (∀ tr (s : ChannelState ℕ (Fin 10) (Fin 10)), (system defaultMaxLength).Run tr s →
      ¬Stalled defaultMaxLength s) ∧
    ¬∀ tr (s : ChannelState ℕ (Fin 11) (Fin 10)), (openSystem defaultMaxLength).Run tr s →
      ¬Stalled defaultMaxLength s := by
  constructor
  · refine (never_stalls_iff (by decide)).2.mpr ?_
    simp [defaultMaxLength]
  · rw [(never_stalls_iff (by decide)).1]
    simp [defaultMaxLength]

end counts

/-! ### Two producers and a consumer -/

/- The consumer waits, is woken by the first `put` and wakes a producer, which
fills the buffer again and wakes the other producer instead of the consumer. -/
def stallingRun : List (ChannelEvent ℕ (Fin 2) Unit) :=
  [.call (.inr ()) .next, .sleep (.inr ()) .next,
    .call (.inl 0) (.put 0), .done (.inl 0) (.put 0) .void,
    .call (.inl 0) (.put 1), .sleep (.inl 0) (.put 1),
    .call (.inl 1) (.put 2), .sleep (.inl 1) (.put 2),
    .done (.inr ()) .next (.value 0),
    .call (.inr ()) .next, .sleep (.inr ()) .next,
    .done (.inl 0) (.put 1) .void,
    .call (.inl 0) (.put 3), .sleep (.inl 0) (.put 3),
    .sleep (.inl 1) (.put 2)]

theorem stallingRun_stalls :
    ∃ s, (openSystem 1).Run stallingRun s ∧ Stalled 1 s := by
  have h0 : (openSystem 1).Run ([] : List (ChannelEvent ℕ (Fin 2) Unit)) _ := .init rfl
  have h1 := h0.snoc (show Monitor.Step (spec 1) openRole _ (.call (.inr ()) .next) _ from
    .call rfl ⟨trivial, by simp⟩)
  have h2 := h1.snoc (show Monitor.Step (spec 1) openRole _ (.sleep (.inr ()) .next) _ from
    .sleep rfl rfl)
  have h3 := h2.snoc (show Monitor.Step (spec 1) openRole _ (.call (.inl 0) (.put 0)) _ from
    .call rfl ⟨trivial, by simp⟩)
  have h4 := h3.snoc (show Monitor.Step (spec 1) openRole _ (.done (.inl 0) (.put 0) .void) _ from
    .act rfl rfl rfl (.one (i := .inr ()) rfl))
  have h5 := h4.snoc (show Monitor.Step (spec 1) openRole _ (.call (.inl 0) (.put 1)) _ from
    .call rfl ⟨trivial, by simp⟩)
  have h6 := h5.snoc (show Monitor.Step (spec 1) openRole _ (.sleep (.inl 0) (.put 1)) _ from
    .sleep rfl rfl)
  have h7 := h6.snoc (show Monitor.Step (spec 1) openRole _ (.call (.inl 1) (.put 2)) _ from
    .call rfl ⟨trivial, by simp⟩)
  have h8 := h7.snoc (show Monitor.Step (spec 1) openRole _ (.sleep (.inl 1) (.put 2)) _ from
    .sleep rfl rfl)
  have h9 := h8.snoc (show Monitor.Step (spec 1) openRole _ (.done (.inr ()) .next (.value 0)) _ from
    .act rfl rfl rfl (.one (i := .inl 0) rfl))
  have h10 := h9.snoc (show Monitor.Step (spec 1) openRole _ (.call (.inr ()) .next) _ from
    .call rfl ⟨trivial, by simp⟩)
  have h11 := h10.snoc (show Monitor.Step (spec 1) openRole _ (.sleep (.inr ()) .next) _ from
    .sleep rfl rfl)
  have h12 := h11.snoc (show Monitor.Step (spec 1) openRole _ (.done (.inl 0) (.put 1) .void) _ from
    .act rfl rfl rfl (.one (i := .inl 1) rfl))
  have h13 := h12.snoc (show Monitor.Step (spec 1) openRole _ (.call (.inl 0) (.put 3)) _ from
    .call rfl ⟨trivial, by simp⟩)
  have h14 := h13.snoc (show Monitor.Step (spec 1) openRole _ (.sleep (.inl 0) (.put 3)) _ from
    .sleep rfl rfl)
  have h15 := h14.snoc (show Monitor.Step (spec 1) openRole _ (.sleep (.inl 1) (.put 2)) _ from
    .sleep rfl rfl)
  refine ⟨_, h15, ?_, .inr ⟨List.cons_ne_nil 1 [], (), rfl⟩⟩
  intro j
  match j with
  | .inl 0 => exact ⟨_, rfl⟩
  | .inl 1 => exact ⟨_, rfl⟩
  | .inr () => exact ⟨_, rfl⟩

end OSwitch.Channel
