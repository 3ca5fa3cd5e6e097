import OSwitch.MergeProgress

/-!
# What the merge guarantees

Conservation, lossless pairing and independence of the schedule, for every
number of queues and every interleaving.
-/

namespace OSwitch.Concatinator
open Trace Wire StdText StreamMerge

variable {n : ℕ}

/-! ### The rounds of a run -/

section rounds
variable {feed : Fin n → ℕ → FpgaPacket} {tr : List (Event n)} {s : State n}

theorem takenAt_nodup (pos : Fin n → ℕ) : (takenAt feed pos).Nodup :=
  (List.nodup_finRange n).filter _

theorem packetsOf_front (pos : Fin n → ℕ) (i : Fin n) {is : List (Fin n)} (h : is.Nodup) :
    packetsOf i (front feed pos is) = if i ∈ is then [feed i (pos i)] else [] := by
  induction is with
  | nil => rfl
  | cons j is ih =>
    obtain ⟨hj, his⟩ := List.nodup_cons.mp h
    have hcons : packetsOf i (front feed pos (j :: is)) =
        (if j = i then [feed j (pos j)] else []) ++ packetsOf i (front feed pos is) := by
      by_cases hji : j = i <;> simp [packetsOf, front, hji]
    rw [hcons, ih his]
    by_cases hji : j = i
    · subst hji
      simp [hj]
    · simp [hji, Ne.symm hji]

theorem round_eq (h : system.Run tr s) (hx : Extends feed fun i => pushed i tr) {r : ℕ}
    {R : Round n} (hr : (rounds tr)[r]? = some R) :
    r < (rounds tr).length ∧ R = mergeRound feed (posAt feed r) := by
  have hlt := (List.getElem?_eq_some_iff.mp hr).1
  rw [rounds_eq h hx, List.getElem?_map, List.getElem?_range hlt] at hr
  exact ⟨hlt, (Option.some_inj.mp hr).symm⟩

theorem round_mem (h : system.Run tr s) (hx : Extends feed fun i => pushed i tr) {R : Round n}
    (hR : R ∈ rounds tr) :
    ∃ r < (rounds tr).length, R = mergeRound feed (posAt feed r) := by
  obtain ⟨r, hr⟩ := List.mem_iff_getElem?.mp hR
  exact ⟨r, round_eq h hx hr⟩

theorem getElem?_rounds (h : system.Run tr s) (hx : Extends feed fun i => pushed i tr) {r : ℕ}
    (hr : r < (rounds tr).length) : (rounds tr)[r]? = some (mergeRound feed (posAt feed r)) := by
  rw [rounds_eq h hx, List.getElem?_map, List.getElem?_range hr]
  rfl

/- The packets that a completed round looked at had been pushed. -/
theorem getElem?_pushed (h : system.Run tr s) (hx : Extends feed fun i => pushed i tr) {r : ℕ}
    (hr : r < (rounds tr).length) (i : Fin n) :
    (pushed i tr)[posAt feed r i]? = some (feed i (posAt feed r i)) := by
  have hlt := (run_merging h hx).past r hr i
  rw [List.getElem?_eq_getElem hlt]
  exact congrArg some (hx i _ _ (List.getElem?_eq_getElem hlt)).symm

theorem consumed_eq (h : system.Run tr s) (hx : Extends feed fun i => pushed i tr) (i : Fin n)
    {r : ℕ} (hr : r ≤ (rounds tr).length) : consumed tr r i = posAt feed r i := by
  induction r with
  | zero => simp [consumed, packetsOf, position]
  | succ r ih =>
    have hround := getElem?_rounds h hx (Nat.lt_of_succ_le hr)
    have hsucc : consumed tr (r + 1) i = consumed tr r i +
        (packetsOf i (front feed (posAt feed r) (takenAt feed (posAt feed r)))).length := by
      unfold consumed
      rw [List.take_add_one, hround, List.flatMap_append, packetsOf_append, List.length_append]
      simp [mergeRound]
    rw [hsucc, ih (Nat.le_of_succ_le hr), packetsOf_front _ _ (takenAt_nodup _)]
    change _ = advance FpgaPacket.frameNumber 256 feed (posAt feed r) i
    by_cases hi : i ∈ takenAt feed (posAt feed r)
    · rw [if_pos hi, advance_of_chosen hi]
      rfl
    · rw [if_neg hi, advance_of_not_chosen hi]
      rfl

end rounds

/-! ### Conservation -/

/- A round looks at every front, pops those with the least frame number, each
once, and puts just these into its message. -/
structure RoundOk (R : Round n) : Prop where
  searched : R.searched.map Prod.fst = List.finRange n
  nonempty : R.popped ≠ []
  once : (R.popped.map Prod.fst).Nodup
  least : ∃ m, (∀ x ∈ R.searched, m ≤ x.2.frameNumber) ∧
    R.popped = R.searched.filter (fun x => x.2.frameNumber = m) ∧
    R.message = some (wireText (idsOf R.popped) (frameText m) (dataOf R.popped))

theorem map_fst_front (feed : Fin n → ℕ → FpgaPacket) (pos : Fin n → ℕ) (is : List (Fin n)) :
    (front feed pos is).map Prod.fst = is := by
  simp [front, Function.comp_def]

theorem flatMap_front_ne_nil {feed : Fin n → ℕ → FpgaPacket} {pos : Fin n → ℕ}
    {is : List (Fin n)} (field : FpgaPacket → Bytes) (hne : is ≠ [])
    (hf : ∀ i, field (feed i (pos i)) ≠ []) :
    (front feed pos is).flatMap (fun x => field x.2) ≠ [] := by
  obtain ⟨i, hi⟩ := List.exists_mem_of_ne_nil _ hne
  intro hnil
  have hall := List.flatMap_eq_nil_iff.mp hnil (i, feed i (pos i))
    (List.mem_map.mpr ⟨i, hi, rfl⟩)
  exact hf i hall

theorem messageOf_front {feed : Fin n → ℕ → FpgaPacket} {pos : Fin n → ℕ} {is : List (Fin n)}
    (m : ℤ) (hne : is ≠ [])
    (hf : ∀ i, (feed i (pos i)).sourceId ≠ [] ∧ (feed i (pos i)).data ≠ []) :
    messageOf m (front feed pos is) = some (wireText (idsOf (front feed pos is)) (frameText m)
      (dataOf (front feed pos is))) :=
  if_pos ⟨flatMap_front_ne_nil FpgaPacket.data hne fun i => (hf i).2,
    flatMap_front_ne_nil FpgaPacket.sourceId hne fun i => (hf i).1⟩

theorem mergeRound_ok (hn : 0 < n) {feed : Fin n → ℕ → FpgaPacket} {pos : Fin n → ℕ}
    (hf : ∀ i, (feed i (pos i)).frameNumber ≤ 255 ∧ (feed i (pos i)).sourceId ≠ [] ∧
      (feed i (pos i)).data ≠ []) : RoundOk (mergeRound feed pos) := by
  have hne : takenAt feed pos ≠ [] := by
    apply chosen_ne_nil hn
    intro i
    have hle := (hf i).1
    omega
  refine ⟨map_fst_front _ _ _, ?_, ?_, minAt feed pos, ?_, ?_, ?_⟩
  · simpa [mergeRound, front] using hne
  · rw [show (mergeRound feed pos).popped = front feed pos (takenAt feed pos) from rfl,
      map_fst_front]
    exact takenAt_nodup pos
  · intro x hx
    obtain ⟨i, -, rfl⟩ := List.mem_map.mp hx
    exact least_le i
  · change front feed pos _ = (front feed pos _).filter _
    unfold front
    rw [List.filter_map]
    rfl
  · exact messageOf_front _ hne fun i => (hf i).2

theorem map_message_eq {tr : List (Event n)} (h : ∀ R ∈ rounds tr, ∃ m, R.message = some m) :
    (rounds tr).map Round.message = (messages tr).map some := by
  rw [messages_eq]
  generalize rounds tr = Rs at h
  induction Rs with
  | nil => rfl
  | cons R Rs ih =>
    obtain ⟨m, hm⟩ := h R List.mem_cons_self
    simp [hm, ih fun R' hR' => h R' (List.mem_cons_of_mem _ hR')]

/- What the current round has popped so far is in the strings that it will send. -/
theorem collected {feed : Fin n → ℕ → FpgaPacket} {pos : Fin n → ℕ}
    {fed : Fin n → List FpgaPacket} {s : State n} {l : Log n} (h : Within feed pos fed s l) :
    idsOf l.popped <+: s.packetSrcIds ∧ dataOf l.popped <+: s.dataS := by
  unfold Within at h
  cases hpc : s.pc with
  | reset =>
    rw [hpc] at h
    rw [h.2.2]
    exact ⟨List.nil_prefix, List.nil_prefix⟩
  | search k =>
    rw [hpc] at h
    rw [h.popped]
    exact ⟨List.nil_prefix, List.nil_prefix⟩
  | compare k =>
    rw [hpc] at h
    rw [h.popped, h.ids, h.data]
    exact ⟨List.prefix_rfl, List.prefix_rfl⟩
  | pop i =>
    rw [hpc] at h
    obtain ⟨hc, hi⟩ := h
    rw [hc.popped, hc.ids, hc.data, chosenAmong_succ hi, front_snoc, idsOf_snoc, dataOf_snoc]
    exact ⟨List.prefix_append _ _, List.prefix_append _ _⟩
  | send =>
    rw [hpc] at h
    rw [h.popped, h.ids, h.data]
    exact ⟨List.prefix_rfl, List.prefix_rfl⟩

/- Every completed round is as it should be, and looked at packets that were pushed. -/
theorem rounds_ok (hn : 0 < n) {tr : List (Event n)} {s : State n} (h : system.Run tr s)
    (hp : ∀ i, ∀ p ∈ pushed i tr, p.frameNumber ≤ 255 ∧ p.sourceId ≠ [] ∧ p.data ≠ []) {r : ℕ}
    {R : Round n} (hr : (rounds tr)[r]? = some R) : RoundOk R ∧
      ∀ i p, (i, p) ∈ R.searched → (pushed i tr)[consumed tr r i]? = some p := by
  have hx := streamOf_extends (fun _ _ => ⟨[], 0, []⟩) fun i => pushed i tr
  obtain ⟨hlt, rfl⟩ := round_eq h hx hr
  have hget := getElem?_pushed h hx hlt
  refine ⟨mergeRound_ok hn fun i => hp i _ (List.mem_of_getElem? (hget i)), ?_⟩
  intro i p hip
  obtain ⟨j, -, hj⟩ := List.mem_map.mp hip
  cases hj
  rw [consumed_eq h hx i hlt.le]
  exact hget i

/-- In every reachable state: what was popped and what is queued is what was
pushed; what was popped was popped in one of the rounds, and if that is not yet
complete is about to be sent; a complete round took the fronts with the least
frame number and sent just these in a message of its own. -/
theorem merge_conserves (hn : 0 < n) {tr : List (Event n)} {s : State n} (h : system.Run tr s)
    (hp : ∀ i, ∀ p ∈ pushed i tr, p.frameNumber ≤ 255 ∧ p.sourceId ≠ [] ∧ p.data ≠ []) :
    (∀ i, popped i tr ++ s.queues i = pushed i tr) ∧
    (∀ i, popped i tr = packetsOf i ((rounds tr).flatMap Round.popped ++ (log tr).popped)) ∧
    (idsOf (log tr).popped <+: s.packetSrcIds ∧ dataOf (log tr).popped <+: s.dataS) ∧
    (∀ r R, (rounds tr)[r]? = some R → RoundOk R ∧
      ∀ i p, (i, p) ∈ R.searched → (pushed i tr)[consumed tr r i]? = some p) ∧
    (rounds tr).map Round.message = (messages tr).map some := by
  have hx := streamOf_extends (fun _ _ => ⟨[], 0, []⟩) fun i => pushed i tr
  have hok := fun r R => rounds_ok hn h hp (r := r) (R := R)
  refine ⟨queue_fifo h, fun i => popped_eq i tr, collected (run_merging h hx).now, hok, ?_⟩
  apply map_message_eq
  intro R hR
  obtain ⟨r, hr⟩ := List.mem_iff_getElem?.mp hR
  obtain ⟨m, -, -, hm⟩ := (hok r R hr).1.least
  exact ⟨_, hm⟩

/- Packets with falling and repeated frame numbers. -/
theorem merge_conserves_shuffled :
    ∃ tr s, (system (n := 2)).Run tr s ∧ (rounds tr).length = 5 ∧
      (∀ i, pushed i tr = (List.range 8).map fun k => linkPacket i (k * (i + 4) % 6)) ∧
      (∀ i, popped i tr ++ s.queues i = pushed i tr) ∧
      ∀ R ∈ rounds tr, RoundOk R := by
  obtain ⟨tr, s, h, hp, hr⟩ := exists_rounds (fun i k => linkPacket i (k * (i + 4) % 6)) 8 5
    (by decide)
  have hall := merge_conserves (by decide) h (by
    intro i p hi
    rw [hp] at hi
    obtain ⟨k, -, rfl⟩ := List.mem_map.mp hi
    refine ⟨?_, linkPacket_ne_nil i _⟩
    simp only [linkPacket]
    omega)
  refine ⟨tr, s, h, hr, hp, hall.1, ?_⟩
  intro R hR
  obtain ⟨r, hr⟩ := List.mem_iff_getElem?.mp hR
  exact (hall.2.2.2.1 r R hr).1

/-! ### Lossless links -/

/- Numbered as the sender does it, with nothing lost. -/
def Lossless (ps : List FpgaPacket) : Prop :=
  ∀ k p, ps[k]? = some p → p.frameNumber = ((k % 255 : ℕ) : ℤ) ∧ p.sourceId ≠ [] ∧ p.data ≠ []

/- What such a link will bring. -/
def losslessStream (fed : Fin n → List FpgaPacket) : Fin n → ℕ → FpgaPacket :=
  streamOf (fun _ k => ⟨[0], ((k % 255 : ℕ) : ℤ), [0]⟩) fed

theorem losslessStream_spec {fed : Fin n → List FpgaPacket} (h : ∀ i, Lossless (fed i))
    (i : Fin n) (k : ℕ) : (losslessStream fed i k).frameNumber = ((k % 255 : ℕ) : ℤ) ∧
      (losslessStream fed i k).sourceId ≠ [] ∧ (losslessStream fed i k).data ≠ [] := by
  unfold losslessStream streamOf
  cases hk : (fed i)[k]? with
  | none => exact ⟨rfl, by simp, by simp⟩
  | some p => exact h i k p hk

theorem posAt_lossless {feed : Fin n → ℕ → FpgaPacket}
    (h : ∀ i k, (feed i k).frameNumber = ((k % 255 : ℕ) : ℤ)) (k : ℕ) :
    posAt feed k = (fun _ => k) ∧ takenAt feed (posAt feed k) = List.finRange n := by
  have htop : ∀ i m, (feed i m).frameNumber < 256 := by
    intro i m
    rw [h]
    omega
  have hsame : ∀ m i j, (feed i m).frameNumber = (feed j m).frameNumber := fun m i j =>
    (h i m).trans (h j m).symm
  exact ⟨funext (position_lockstep htop hsame k), chosen_lockstep htop hsame k⟩

/- Round k takes the k-th packet of every queue. -/
theorem mergeRound_lossless (hn : 0 < n) {feed : Fin n → ℕ → FpgaPacket}
    (h : ∀ i k, (feed i k).frameNumber = ((k % 255 : ℕ) : ℤ) ∧ (feed i k).sourceId ≠ [] ∧
      (feed i k).data ≠ []) (k : ℕ) :
    (mergeRound feed (posAt feed k)).popped =
        (List.finRange n).map (fun i => (i, feed i k)) ∧
      (mergeRound feed (posAt feed k)).message =
        some (wireText ((List.finRange n).flatMap fun i => (feed i k).sourceId)
          (frameText (k % 255 : ℕ)) ((List.finRange n).flatMap fun i => (feed i k).data)) := by
  obtain ⟨hpos, htaken⟩ := posAt_lossless (fun i k => (h i k).1) k
  have hmin : minAt feed (posAt feed k) = ((k % 255 : ℕ) : ℤ) := by
    have hi : (⟨0, hn⟩ : Fin n) ∈ takenAt feed (posAt feed k) := by
      rw [htaken]
      exact List.mem_finRange _
    have hkey := mem_chosen.mp hi
    rw [hpos] at hkey ⊢
    exact hkey.symm.trans (h _ k).1
  have hne : List.finRange n ≠ [] := List.ne_nil_of_mem (List.mem_finRange (⟨0, hn⟩ : Fin n))
  unfold mergeRound
  rw [htaken, hmin, hpos]
  refine ⟨rfl, ?_⟩
  change messageOf _ _ = _
  rw [messageOf_front _ hne fun i => (h i k).2]
  simp only [idsOf, dataOf, front, List.flatMap_map]

/-- The k-th message consists of the k-th packet of every queue. -/
theorem lossless_pairing (hn : 0 < n) {tr : List (Event n)} {s : State n} (h : system.Run tr s)
    (hp : ∀ i, Lossless (pushed i tr)) :
    (messages tr).length = (rounds tr).length ∧
    ∀ k R, (rounds tr)[k]? = some R → ∃ ps : Fin n → FpgaPacket,
      (∀ i, (pushed i tr)[k]? = some (ps i)) ∧
      R.popped = (List.finRange n).map (fun i => (i, ps i)) ∧
      (messages tr)[k]? = some (wireText ((List.finRange n).flatMap fun i => (ps i).sourceId)
        (frameText (k % 255 : ℕ)) ((List.finRange n).flatMap fun i => (ps i).data)) := by
  have hx : Extends (losslessStream fun i => pushed i tr) fun i => pushed i tr :=
    streamOf_extends _ _
  have hspec := losslessStream_spec hp
  generalize losslessStream (fun i => pushed i tr) = feed at hx hspec
  have hmsg : (rounds tr).map Round.message = (messages tr).map some := by
    apply map_message_eq
    intro R hR
    obtain ⟨r, -, rfl⟩ := round_mem h hx hR
    exact ⟨_, (mergeRound_lossless hn hspec r).2⟩
  constructor
  · have hlen := congrArg List.length hmsg
    rw [List.length_map, List.length_map] at hlen
    exact hlen.symm
  · intro k R hk
    have hlast := congrArg (fun ms => ms[k]?) hmsg
    obtain ⟨hlt, rfl⟩ := round_eq h hx hk
    obtain ⟨hpopped, hmessage⟩ := mergeRound_lossless hn hspec k
    refine ⟨fun i => feed i k, ?_, hpopped, ?_⟩
    · intro i
      have hget := getElem?_pushed h hx hlt i
      rw [(posAt_lossless (fun i k => (hspec i k).1) k).1] at hget
      exact hget
    · simp only [List.getElem?_map, hk, Option.map_some, hmessage] at hlast
      obtain ⟨m, hm, hms⟩ := Option.map_eq_some_iff.mp hlast.symm
      rw [hm, hms]

/- Both links of `main`, more than two numbering cycles long. -/
theorem lossless_pairing_links :
    ∃ tr s, (system (n := 2)).Run tr s ∧ (rounds tr).length = 600 ∧
      (∀ i, pushed i tr = (List.range 700).map fun k => linkPacket i (k % 255)) ∧
      (messages tr).length = (rounds tr).length := by
  obtain ⟨tr, s, h, hp, hr⟩ := exists_rounds (fun i k => linkPacket i (k % 255)) 700 600
    (by decide)
  refine ⟨tr, s, h, hr, hp, (lossless_pairing (by decide) h ?_).1⟩
  intro i k p hk
  rw [← extends_range hp i k p hk]
  exact ⟨rfl, linkPacket_ne_nil i _⟩

/-! ### Independence of the schedule -/

/-- Two runs whose queues are fed from the same sequences send the same
messages, as far as both have got. -/
theorem schedule_independence {tr tr' : List (Event n)} {s s' : State n} (h : system.Run tr s)
    (h' : system.Run tr' s')
    (hfed : ∀ i, pushed i tr <+: pushed i tr' ∨ pushed i tr' <+: pushed i tr) :
    (messages tr <+: messages tr' ∨ messages tr' <+: messages tr) ∧
    ((rounds tr).length = (rounds tr').length → messages tr = messages tr') := by
  -- For every queue the longer of the two sequences begins the stream.
  have hlonger : ∀ i, ∃ ps, pushed i tr <+: ps ∧ pushed i tr' <+: ps := by
    intro i
    rcases hfed i with hi | hi
    · exact ⟨_, hi, List.prefix_rfl⟩
    · exact ⟨_, List.prefix_rfl, hi⟩
  choose fed hl hr using hlonger
  have hx := streamOf_extends (fun _ _ => ⟨[], 0, []⟩) fed
  have hrounds := rounds_eq h (extends_initial hx hl)
  have hrounds' := rounds_eq h' (extends_initial hx hr)
  generalize streamOf (fun _ _ => ⟨[], 0, []⟩) fed = feed at hrounds hrounds'
  constructor
  · rw [messages_eq, messages_eq, hrounds, hrounds']
    have hinitial : ∀ a b, a ≤ b →
        ((List.range a).map fun r => mergeRound feed (posAt feed r)).filterMap Round.message <+:
          ((List.range b).map fun r => mergeRound feed (posAt feed r)).filterMap Round.message := by
      intro a b hab
      apply List.IsPrefix.filterMap
      apply List.IsPrefix.map
      exact List.prefix_iff_eq_take.mpr (by simp [List.take_range, hab])
    rcases le_total (rounds tr).length (rounds tr').length with hle | hle
    · exact .inl (hinitial _ _ hle)
    · exact .inr (hinitial _ _ hle)
  · intro hlen
    rw [messages_eq, messages_eq, hrounds, hrounds', hlen]

/- One run has got two rounds further than the other. -/
theorem schedule_independence_links :
    ∃ (tr tr' : List (Event 2)) (s s' : State 2), system.Run tr s ∧ system.Run tr' s' ∧
      (rounds tr).length = 3 ∧
      (rounds tr').length = 5 ∧ (messages tr <+: messages tr' ∨ messages tr' <+: messages tr) := by
  obtain ⟨tr, s, h, hp, hr⟩ := exists_rounds (fun i k => linkPacket i k) 4 3 (by decide)
  obtain ⟨tr', s', h', hp', hr'⟩ := exists_rounds (fun i k => linkPacket i k) 6 5 (by decide)
  refine ⟨tr, tr', s, s', h, h', hr, hr', (schedule_independence h h' ?_).1⟩
  intro i
  left
  rw [hp, hp']
  apply List.IsPrefix.map
  exact ⟨[4, 5], rfl⟩

end OSwitch.Concatinator
