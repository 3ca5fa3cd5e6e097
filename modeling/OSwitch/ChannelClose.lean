import Mathlib.Logic.IsEmpty.Basic
import OSwitch.Channel

/-!
# What `close` ends, and what it does not

`next` also stops waiting when the channel is closed, `put` does not look at
`closed_`. So a value can enter a closed channel, and a stream that has ended
can go on.
-/

namespace OSwitch.Channel
open Trace Monitor

variable {α P C : Type*} [DecidableEq P] [DecidableEq C] {maxLength : ℕ}

/-- Nothing is put after `close`, and the end of the stream is the end. -/
structure Final (tr : List (Op α × Result α)) : Prop where
  shut : ∀ tr₁ r tr₂, tr = tr₁ ++ (.close, r) :: tr₂ → ∀ val r', (.put val, r') ∉ tr₂
  ended : ∀ tr₁ tr₂, tr = tr₁ ++ (.next, .nullopt) :: tr₂ →
    ∀ r, (.next, r) ∈ tr₂ → r = .nullopt

/- From `s` on, a `put` is called only where `late` says so. -/
def Onward (maxLength : ℕ) (late : P → α → Prop) (s : ChannelState α P C)
    (tr : List (ChannelEvent α P C)) (s' : ChannelState α P C) : Prop :=
  ((system maxLength).startingAt s).Run tr s' ∧
    ∀ i val, .call (.inl i) (.put val) ∈ tr → late i val

/-! ### No value enters -/

theorem inserted_nil {tr : List (Op α × Result α)} (h : ∀ val r, (.put val, r) ∉ tr) :
    inserted tr = [] := by
  refine List.filterMap_eq_nil_iff.mpr ?_
  rintro ⟨op, r⟩ he
  cases op with
  | put val => exact absurd he (h val r)
  | next | close => rfl

theorem next_result {tr : List (ChannelEvent α P C)} {s : ChannelState α P C}
    (h : (system maxLength).Run tr s) {r : Result α} (hr : (.next, r) ∈ tr.filterMap performed) :
    r = .nullopt ∨ ∃ val, r = .value val := by
  obtain ⟨i, hi⟩ := mem_performed.mp hr
  obtain ⟨ch, hg, rfl⟩ := guard_of_done h hi
  rcases act_next hg with ⟨-, -, hact⟩ | ⟨val, rest, -, hact⟩
  · exact .inl (by rw [hact])
  · exact .inr ⟨val, by rw [hact]⟩

/-- Where nothing is put after the first `close`, the end of the stream is the
end, too: it came with everything returned. -/
theorem final_of_shut {tr : List (ChannelEvent α P C)} {s : ChannelState α P C}
    (h : (system maxLength).Run tr s)
    (hshut : ∀ tr₁ r tr₂, tr.filterMap performed = tr₁ ++ (.close, r) :: tr₂ →
      ∀ val r', (.put val, r') ∉ tr₂) : Final (tr.filterMap performed) := by
  refine ⟨hshut, ?_⟩
  intro tr₁ tr₂ htr r hr
  have hsound := run_sound h
  obtain ⟨⟨r', hclose⟩, hall⟩ := hsound.drained tr₁ tr₂ htr
  obtain ⟨trᵢ, trⱼ, hsplit⟩ := List.append_of_mem hclose
  have hnone : inserted tr₂ = [] := by
    refine inserted_nil fun val r'' hput => ?_
    rw [hsplit, List.append_assoc, List.cons_append] at htr
    refine hshut _ _ _ htr val r'' ?_
    simp [hput]
  have hfifo : returned tr₁ ++ (returned tr₂ ++ s.shared.buffer) = inserted tr₁ ++ inserted tr₂ := by
    simpa [htr, returned, inserted] using hsound.fifo
  rw [hall, hnone] at hfifo
  have hrest : returned tr₂ = [] := (List.append_eq_nil_iff.mp (List.append_cancel_left hfifo)).1
  have hmem : (.next, r) ∈ tr.filterMap performed := by
    rw [htr]
    simp [hr]
  rcases next_result h hmem with rfl | ⟨val, rfl⟩
  · rfl
  · have hval := List.filterMap_eq_nil_iff.mp hrest _ hr
    cases hval

theorem Onward.run {late : P → α → Prop} {tr₀ tr : List (ChannelEvent α P C)}
    {s s' : ChannelState α P C} (h : (system maxLength).Run tr₀ s)
    (hon : Onward maxLength late s tr s') : (system maxLength).Run (tr₀ ++ tr) s' := h.append hon.1

/- What holds at first and is kept by the steps of a run that goes on as
allowed. -/
theorem Onward.invariant {late : P → α → Prop} {tr₀ tr : List (ChannelEvent α P C)}
    {s s' : ChannelState α P C} {I : ChannelState α P C → Prop} (h : (system maxLength).Run tr₀ s)
    (hon : Onward maxLength late s tr s') (h0 : I s)
    (hs : ∀ tr u e u', (system maxLength).Run tr u → I u →
      Step (spec maxLength) role u e u' → (∀ i val, e = .call (.inl i) (.put val) → late i val) →
      I u' ∧ ∀ val r, performed e ≠ some (.put val, r)) :
    I s' ∧ ∀ val r, (.put val, r) ∉ tr.filterMap performed := by
  obtain ⟨hrun, hlate⟩ := hon
  induction hrun with
  | init hi =>
    cases hi
    exact ⟨h0, by simp⟩
  | @snoc tr u e u' hrun he ih =>
    obtain ⟨hi, hnone⟩ := ih fun i val hmem => hlate i val (List.mem_append_left _ hmem)
    obtain ⟨hi', hput⟩ := hs _ u e u' (h.append hrun) hi he fun i val hcall =>
      hlate i val (by simp [hcall])
    refine ⟨hi', fun val r hmem => ?_⟩
    rw [List.filterMap_append, List.mem_append] at hmem
    rcases hmem with hmem | hmem
    · exact hnone val r hmem
    · obtain ⟨e', he', hperf⟩ := List.mem_filterMap.mp hmem
      rw [List.mem_singleton] at he'
      subst he'
      exact hput val r hperf

theorem no_put_of_outside {late : P → α → Prop} {tr₀ tr : List (ChannelEvent α P C)}
    {s s' : ChannelState α P C} (h : (system maxLength).Run tr₀ s)
    (hon : Onward maxLength late s tr s')
    (hout : ∀ i val, ¬ (s.thread (.inl i)).Pending (.put val) ∧ ¬ late i val) :
    ∀ val r, (.put val, r) ∉ tr.filterMap performed := by
  refine (Onward.invariant h hon
    (I := fun u => ∀ j val, ¬ (u.thread j).Pending (.put val)) ?_ ?_).2
  · intro j val hp
    cases j with
    | inl i => exact (hout i val).1 hp
    | inr c => exact may_of_pending h _ _ hp
  · intro tr u e u' _ hi he hcalls
    refine ⟨fun j val hp => ?_, fun val r hperf => ?_⟩
    · rcases pending_step he hp with hold | ⟨rfl, hmay⟩
      · exact hi j val hold
      · cases j with
        | inl i => exact (hout i val).2 (hcalls i val rfl)
        | inr c => exact hmay
    · rcases step_cases he with ⟨hnone, -⟩ | ⟨j, op, rfl, hj, -⟩
      · rw [hnone] at hperf
        cases hperf
      · cases hperf
        exact hi j val (.inl hj)

theorem no_put_of_full [IsEmpty C] {late : P → α → Prop} {tr₀ tr : List (ChannelEvent α P C)}
    {s s' : ChannelState α P C} (h : (system maxLength).Run tr₀ s)
    (hon : Onward maxLength late s tr s') (hfull : maxLength ≤ s.shared.buffer.length) :
    ∀ val r, (.put val, r) ∉ tr.filterMap performed := by
  refine (Onward.invariant h hon (I := fun u => maxLength ≤ u.shared.buffer.length) hfull ?_).2
  intro tr u e u' hrun hi he _
  rcases step_cases he with ⟨hnone, hsame⟩ | ⟨j, op, rfl, hj, hg, hact⟩
  · rw [hsame, hnone]
    exact ⟨hi, by simp⟩
  · cases op with
    | put val =>
      have hroom : u.shared.buffer.length < maxLength := by simpa [spec] using hg
      omega
    | close =>
      rw [hact]
      exact ⟨hi, fun val r hperf => by cases hperf⟩
    | next =>
      cases j with
      | inl i => exact (may_of_pending hrun _ _ (.inl hj)).elim
      | inr c => exact isEmptyElim c

/-! ### A value enters -/

theorem Onward.refl {late : P → α → Prop} (s : ChannelState α P C) :
    Onward maxLength late s [] s := ⟨.init rfl, by simp⟩

theorem Onward.trans {late : P → α → Prop} {tr tr' : List (ChannelEvent α P C)}
    {s u s' : ChannelState α P C} (h : Onward maxLength late s tr u)
    (h' : Onward maxLength late u tr' s') : Onward maxLength late s (tr ++ tr') s' := by
  refine ⟨h.1.append h'.1, fun i val hmem => ?_⟩
  rcases List.mem_append.mp hmem with hmem | hmem
  · exact h.2 i val hmem
  · exact h'.2 i val hmem

variable (maxLength) in
/- What is pending is done as soon as its guard holds; nobody calls anything. -/
theorem onward_done (late : P → α → Prop) {s : ChannelState α P C} {j : P ⊕ C} {op : Op α}
    (hp : (s.thread j).Pending op) (hg : (spec maxLength).guard op s.shared = true) :
    ∃ tr u, Onward maxLength late s tr u ∧
      tr.filterMap performed = [(op, ((spec maxLength).act op s.shared).2)] ∧
      u.shared = ((spec maxLength).act op s.shared).1 ∧ u.thread j = .idle ∧
      ∀ k op', k ≠ j → ((u.thread k).Pending op' ↔ (s.thread k).Pending op') := by
  obtain ⟨tr, u, hrun, htr, hcalls, hu, hidle, hothers⟩ := exists_done hp hg rfl
  exact ⟨tr, u, ⟨hrun, fun i val hmem => absurd hmem (hcalls _ _)⟩, htr, hu, hidle, hothers⟩

variable (maxLength) in
theorem onward_call {late : P → α → Prop} {s : ChannelState α P C} {j : P ⊕ C} {op : Op α}
    (hj : s.thread j = .idle) (hrole : role j op)
    (hlate : ∀ i val, j = .inl i → op = .put val → late i val) :
    ∃ tr u, Onward maxLength late s tr u ∧ (u.thread j).Pending op ∧ u.shared = s.shared ∧
      ∀ k op', k ≠ j → ((u.thread k).Pending op' ↔ (s.thread k).Pending op') := by
  refine ⟨[.call j op], ⟨s.shared, Function.update s.thread j (.ready op)⟩,
    ⟨.snoc (.init rfl) (.call hj hrole), ?_⟩, .inl (Function.update_self ..), rfl, ?_⟩
  · intro i val hmem
    cases List.mem_singleton.mp hmem
    exact hlate i val rfl rfl
  · intro k op' hk
    dsimp only
    rw [Function.update_of_ne hk]

/-- A thread that takes part comes to be inside `put` or `next`. -/
theorem exists_inside (late : P → α → Prop) {tr₀ : List (ChannelEvent α P C)}
    {s : ChannelState α P C} (h : (system maxLength).Run tr₀ s) (j : P ⊕ C) (op : Op α)
    (hop : op ≠ .close) (hrole : role j op)
    (hlate : ∀ i val, j = .inl i → op = .put val → late i val) :
    ∃ tr u op', Onward maxLength late s tr u ∧ op' ≠ .close ∧ role j op' ∧
      (u.thread j).Pending op' ∧ u.shared.buffer = s.shared.buffer ∧
      ∀ k op'', k ≠ j → ((u.thread k).Pending op'' ↔ (s.thread k).Pending op'') := by
  rcases idle_or_pending (fun _ => rfl) h j with hidle | ⟨op', hp⟩
  · obtain ⟨tr, u, hon, hpend, hu, hothers⟩ := onward_call maxLength hidle hrole hlate
    exact ⟨tr, u, op, hon, hop, hrole, hpend, by rw [hu], hothers⟩
  · by_cases hclose : op' = .close
    · subst hclose
      obtain ⟨tr, u, hon, -, hu, hidle, hothers⟩ :=
        onward_done maxLength late hp rfl
      obtain ⟨tr', u', hon', hpend, hu', hothers'⟩ := onward_call maxLength hidle hrole hlate
      refine ⟨tr ++ tr', u', op, hon.trans hon', hop, hrole, hpend, by rw [hu', hu]; rfl, ?_⟩
      intro k op'' hk
      rw [hothers' k op'' hk, hothers k op'' hk]
    · exact ⟨[], s, op', .refl s, hclose, may_of_pending h _ _ hp, hp, rfl, fun _ _ _ => Iff.rfl⟩

/-- A producer inside `put` comes to its end when there is room or somebody who
makes room. -/
theorem exists_put (late : P → α → Prop) {tr₀ : List (ChannelEvent α P C)}
    {s : ChannelState α P C} (h : (system maxLength).Run tr₀ s) {i : P} {val : α}
    (hp : (s.thread (.inl i)).Pending (.put val)) (hlen : maxLength ≠ 0)
    (hroom : s.shared.buffer.length < maxLength ∨ Nonempty C) :
    ∃ tr u, Onward maxLength late s tr u ∧ (.put val, .void) ∈ tr.filterMap performed := by
  by_cases hlt : s.shared.buffer.length < maxLength
  · obtain ⟨tr, u, hon, htr, -⟩ := onward_done maxLength late hp (decide_eq_true hlt)
    exact ⟨tr, u, hon, by simp [htr, spec]⟩
  · obtain ⟨c⟩ := hroom.resolve_left hlt
    have hbound := (run_sound h).bounded
    obtain ⟨v, rest, hbuf⟩ := List.exists_cons_of_length_pos (l := s.shared.buffer) (by omega)
    obtain ⟨tr₁, u₁, op, hon₁, hop, hrole, hp₁, hu₁, hothers₁⟩ :=
      exists_inside late h (.inr c) .next (by simp) trivial (by simp)
    cases op with
    | close => exact absurd rfl hop
    | put => exact hrole.elim
    | next =>
      rw [hbuf] at hu₁
      have hg : (spec maxLength).guard .next u₁.shared = true := by simp [spec, hu₁]
      obtain ⟨tr₂, u₂, hon₂, -, hu₂, -, hothers₂⟩ := onward_done maxLength late hp₁ hg
      have hput : (u₂.thread (.inl i)).Pending (.put val) := by
        rw [hothers₂ _ _ (by simp), hothers₁ _ _ (by simp)]
        exact hp
      have hrest : u₂.shared.buffer = rest := by
        rw [hu₂]
        simp [spec, hu₁]
      have hroom₂ : u₂.shared.buffer.length < maxLength := by
        rw [hbuf, List.length_cons] at hbound
        rw [hrest]
        omega
      obtain ⟨tr₃, u₃, hon₃, htr₃, -⟩ := onward_done maxLength late hput (decide_eq_true hroom₂)
      exact ⟨tr₁ ++ tr₂ ++ tr₃, u₃, (hon₁.trans hon₂).trans hon₃, by simp [htr₃, spec]⟩

/-- A `put` that is on its way after the channel was closed, or is still called,
gets through unless the buffer stays full. -/
theorem exists_late_put {late : P → α → Prop} {tr₀ : List (ChannelEvent α P C)}
    {s : ChannelState α P C} (h : (system maxLength).Run tr₀ s) {i : P} {val : α}
    (hput : (s.thread (.inl i)).Pending (.put val) ∨ late i val) (hlen : maxLength ≠ 0)
    (hroom : s.shared.buffer.length < maxLength ∨ Nonempty C) :
    ∃ tr u val', Onward maxLength late s tr u ∧ (.put val', .void) ∈ tr.filterMap performed := by
  rcases hput with hp | hlate
  · obtain ⟨tr, u, hon, hmem⟩ := exists_put late h hp hlen hroom
    exact ⟨tr, u, val, hon, hmem⟩
  · obtain ⟨tr₁, u₁, op, hon₁, hop, hrole, hp, hu₁, -⟩ := exists_inside late h (.inl i)
      (.put val) (by simp) trivial (by rintro _ _ ⟨⟩ ⟨⟩; exact hlate)
    cases op with
    | close => exact absurd rfl hop
    | next => exact hrole.elim
    | put val' =>
      rw [← hu₁] at hroom
      obtain ⟨tr₂, u₂, hon₂, hmem⟩ := exists_put late (hon₁.run h) hp hlen hroom
      exact ⟨tr₁ ++ tr₂, u₂, val', hon₁.trans hon₂, by simp [hmem]⟩

/-- The first `close` is final whatever comes after it, with `put` called as
`late` says, iff no `put` is on its way and none is called, or none could get
through. -/
theorem close_final_iff {tr₀ : List (ChannelEvent α P C)} {j : P ⊕ C} {r : Result α}
    {s : ChannelState α P C} (h : (system maxLength).Run (tr₀ ++ [.done j .close r]) s)
    (hfirst : ∀ k r', .done k .close r' ∉ tr₀) (late : P → α → Prop) :
    (∀ tr s', Onward maxLength late s tr s' →
      Final ((tr₀ ++ [Event.done j Op.close r] ++ tr).filterMap performed)) ↔
      (∀ i val, ¬ (s.thread (.inl i)).Pending (.put val) ∧ ¬ late i val) ∨ maxLength = 0 ∨
        (maxLength ≤ s.shared.buffer.length ∧ IsEmpty C) := by
  have hsplit : ∀ tr : List (ChannelEvent α P C),
      (tr₀ ++ [Event.done j Op.close r] ++ tr).filterMap performed =
        tr₀.filterMap performed ++ (.close, r) :: tr.filterMap performed := by
    intro tr
    rw [List.append_assoc, List.filterMap_append]
    rfl
  constructor
  · intro hfinal
    by_contra hcond
    simp only [not_or, not_and, not_forall, not_not, not_isEmpty_iff] at hcond
    obtain ⟨⟨i, val, hput⟩, hlen, hroom⟩ := hcond
    have hput' := or_iff_not_imp_left.mpr hput
    have hroom' : s.shared.buffer.length < maxLength ∨ Nonempty C :=
      or_iff_not_imp_left.mpr fun hlt => hroom (Nat.le_of_not_lt hlt)
    obtain ⟨tr, u, val', hon, hmem⟩ := exists_late_put h hput' hlen hroom'
    exact (hfinal tr u hon).shut _ _ _ (hsplit tr) val' .void hmem
  · intro hcond tr s' hon
    have hnone : ∀ val r', (.put val, r') ∉ tr.filterMap performed := by
      rcases hcond with hout | rfl | ⟨hfull, hempty⟩
      · exact no_put_of_outside h hon hout
      · intro val r' hmem
        obtain ⟨i, hi⟩ := mem_performed.mp hmem
        obtain ⟨ch, hg, -⟩ := guard_of_done (hon.run h) (List.mem_append_right _ hi)
        simp [spec] at hg
      · exact no_put_of_full h hon hfull
    refine final_of_shut (hon.run h) ?_
    intro tr₁ r' tr₂ heq val r'' hmem
    rw [hsplit] at heq
    have hclose : (Op.close, r') ∉ tr₀.filterMap performed := by
      intro hmem
      obtain ⟨k, hk⟩ := mem_performed.mp hmem
      exact hfirst k r' hk
    exact hnone val r'' (subset_of_split heq hclose hmem)

/- A consumer finds the stream ended, and the `put` that was called late still
comes through to it. -/
theorem close_not_final :
    ∃ tr, ∃ s : ChannelState ℕ Unit Unit, (system defaultMaxLength).Run tr s ∧
      ¬ Final (tr.filterMap performed) ∧
      ∃ tr₁ tr₂, tr.filterMap performed = tr₁ ++ (.next, .nullopt) :: tr₂ ∧
        (.next, .value 7) ∈ tr₂ := by
  have h0 : (sequential (spec defaultMaxLength) ({} : Chan ℕ)).Run [] {} := .init rfl
  have h1 := h0.snoc (e := (.close, .void)) ⟨rfl, rfl⟩
  have h2 := h1.snoc (e := (.next, .nullopt)) ⟨rfl, rfl⟩
  have h3 := h2.snoc (e := (.put 7, .void)) ⟨rfl, rfl⟩
  have h4 := h3.snoc (e := (.next, .value 7)) ⟨rfl, rfl⟩
  have hrun := run_oneByOne (role_caller () ()) (fun _ => rfl) h4
  refine ⟨_, _, hrun, fun hfinal => ?_, ?_⟩
  · rw [performed_oneByOne] at hfinal
    exact hfinal.shut [] .void [(.next, .nullopt), (.put 7, .void), (.next, .value 7)] rfl
      7 .void (by simp)
  · rw [performed_oneByOne]
    exact ⟨[(.close, .void)], [(.put 7, .void), (.next, .value 7)], rfl, by simp⟩

/- Closed with one consumer and the producer outside: final as long as `put` is
not called again, and only so. -/
theorem close_final_iff_idle :
    ∃ tr₀, ∃ s : ChannelState ℕ Unit Unit,
      (system defaultMaxLength).Run (tr₀ ++ [.done (.inl ()) .close .void]) s ∧
      ∀ late : Unit → ℕ → Prop,
        (∀ tr s', Onward defaultMaxLength late s tr s' →
          Final ((tr₀ ++ [Event.done (Sum.inl ()) Op.close Result.void] ++ tr).filterMap performed)) ↔
        ∀ i val, ¬ late i val := by
  have h0 : (sequential (spec defaultMaxLength) ({} : Chan ℕ)).Run [] {} := .init rfl
  have h1 := h0.snoc (e := (.close, .void)) ⟨rfl, rfl⟩
  have hrun : (system defaultMaxLength).Run
      ([.call (.inl ()) .close] ++ [.done (.inl ()) .close .void]) _ :=
    run_oneByOne (role_caller () ()) (fun _ => rfl) h1
  refine ⟨_, _, hrun, fun late => ?_⟩
  rw [close_final_iff hrun (by simp) late]
  simp [defaultMaxLength, Thread.Pending]

end OSwitch.Channel
