import OSwitch.MergeProperties

/-!
# The fragments of a whole run (`concatinator/src/concatinator.cc:59-63, 107-130`)

The counter in the offset field is declared in front of the loop and never set
back, so a message starts at 1125 times the number of all fragments sent before.
-/

namespace OSwitch.Concatinator
open Trace Wire Rfc791 Fragmentation

variable {n : ℕ}

/-- Number of fragments that these messages are sent in. -/
def fragmentCount (ms : List Bytes) : ℕ := (ms.map fun m => chunks m.length).sum

theorem fragmentCount_snoc (ms : List Bytes) (m : Bytes) :
    fragmentCount (ms ++ [m]) = fragmentCount ms + chunks m.length := by simp [fragmentCount]

/- The counter behind these messages. -/
def offsetAfter (ms : List Bytes) : ℕ := 1125 * fragmentCount ms % 2 ^ 32

theorem offsetAfter_snoc (ms : List Bytes) (m : Bytes) :
    (offsetAfter ms + 1125 * chunks m.length) % 2 ^ 32 = offsetAfter (ms ++ [m]) := by
  unfold offsetAfter
  rw [fragmentCount_snoc]
  omega

theorem sendFragments_offsetAfter (ms : List Bytes) (m : Bytes) :
    sendFragments m (offsetAfter ms) =
      ((List.range (chunks m.length)).map fun t =>
          fragment m (9000 * t) (1125 * (fragmentCount ms + t) % 2 ^ 32),
        offsetAfter (ms ++ [m])) := by
  have hlt : offsetAfter ms < 2 ^ 32 := Nat.mod_lt _ (by decide)
  rw [sendFragments_eq m _ hlt, offsetAfter_snoc]
  refine Prod.ext (List.map_congr_left ?_) rfl
  intro t _
  refine congrArg (fragment m (9000 * t)) ?_
  unfold offsetAfter
  omega

/- The messages that the transmissions are of, each with its own fragments. -/
structure Accounted (txs : List (Bytes × List Bytes)) (offset : ℕ) : Prop where
  counter : offset = offsetAfter (txs.map Prod.fst)
  frames : ∀ j m fs, txs[j]? = some (m, fs) →
    fs = (sendFragments m (offsetAfter ((txs.map Prod.fst).take j))).1

theorem accounted_snoc {txs : List (Bytes × List Bytes)} {offset : ℕ} (h : Accounted txs offset)
    (m : Bytes) :
    Accounted (txs ++ [(m, (sendFragments m offset).1)]) (sendFragments m offset).2 := by
  constructor
  · rw [h.counter, sendFragments_offsetAfter, List.map_append]
    rfl
  · intro j m' fs hj
    rw [List.map_append]
    by_cases hlt : j < txs.length
    · rw [List.getElem?_append_left hlt] at hj
      rw [List.take_append_of_le_length (by rw [List.length_map]; omega)]
      exact h.frames j m' fs hj
    · rw [List.getElem?_append_right (by omega)] at hj
      obtain ⟨hz, hs⟩ := List.getElem?_eq_some_iff.mp hj
      rw [List.length_singleton] at hz
      obtain rfl : j = txs.length := by omega
      simp only [Nat.sub_self, List.getElem_cons_zero, Prod.mk.injEq] at hs
      obtain ⟨rfl, rfl⟩ := hs
      rw [List.take_append_of_le_length (by rw [List.length_map]), List.take_of_length_le
        (by rw [List.length_map]), ← h.counter]

theorem transmissions_append (tr tr' : List (Event n)) :
    transmissions (tr ++ tr') = transmissions tr ++ transmissions tr' := by
  simp [transmissions]

theorem accounted_silent {tr : List (Event n)} {offset : ℕ} {e : Event n}
    (h : Accounted (transmissions tr) offset) (he : transmissions [e] = []) :
    Accounted (transmissions (tr ++ [e])) offset := by
  rw [transmissions_append, he, List.append_nil]
  exact h

theorem accounted_act {tr : List (Event n)} {s s' : State n} {e : Event n}
    (h : Accounted (transmissions tr) s.offset) (ha : Act s e s') :
    Accounted (transmissions (tr ++ [e])) s'.offset := by
  cases ha with
  | send =>
    unfold State.send
    split
    next =>
      rw [transmissions_append]
      exact accounted_snoc h s.sendBuf
    next => exact accounted_silent h rfl
  | compare =>
    unfold State.compare
    split <;> exact accounted_silent h rfl
  | reset | search | format | finish | pop => exact accounted_silent h rfl

theorem run_accounted {tr : List (Event n)} {s : State n} (h : system.Run tr s) :
    Accounted (transmissions tr) s.offset := by
  refine h.invariant (I := fun tr s => Accounted (transmissions tr) s.offset) ?_ ?_
  · intro s hs
    have hstart : _ = start := hs
    subst hstart
    exact ⟨rfl, fun j m fs hj => by cases hj⟩
  · intro tr s e s' _ ih he
    cases he with
    | push => exact accounted_silent ih rfl
    | thread hn => exact accounted_act ih (act_of_next hn)

/-- The fragments of message `j`. -/
theorem frames_eq {tr : List (Event n)} {s : State n} (h : system.Run tr s) {j : ℕ} {m : Bytes}
    {fs : List Bytes} (hj : (transmissions tr)[j]? = some (m, fs)) :
    fs = (List.range (chunks m.length)).map fun t =>
      fragment m (9000 * t) (1125 * (fragmentCount ((messages tr).take j) + t) % 2 ^ 32) := by
  rw [(run_accounted h).frames j m fs hj]
  exact congrArg Prod.fst (sendFragments_offsetAfter _ m)

theorem getElem?_messages {tr : List (Event n)} {j : ℕ} {m : Bytes} {fs : List Bytes}
    (hj : (transmissions tr)[j]? = some (m, fs)) : (messages tr)[j]? = some m := by
  rw [messages, List.getElem?_map, hj]
  rfl

/-! ### Reading the headers -/

/-- The position in the message of the first byte of fragment `t`. -/
def firstByte (fs : List Bytes) (t : ℕ) : ℕ := ((fs.take t).map fun f => f.length - 20).sum

def carried (f : Bytes) : Option (Fragment Byte) := (fragmentOf f).map Prod.snd

/-- The fragments decode to their message by the layout of RFC 791. -/
structure Decodes (m : Bytes) (fs : List Bytes) : Prop where
  header : ∀ t f, fs[t]? = some f → ∃ hd, parse f = some hd ∧
    8 * hd.fragmentOffset = firstByte fs t ∧ hd.moreFragments = decide (t + 1 < fs.length) ∧
    hd.reserved = false ∧ hd.dontFragment = false
  reassembled : ∀ d, Completes (fs.filterMap carried) d ↔ d = m

/- The fragments of a message that starts with counter `1125 * c`. -/
def framesFrom (m : Bytes) (c : ℕ) : List Bytes :=
  (List.range (chunks m.length)).map fun t => fragment m (9000 * t) (1125 * (c + t) % 2 ^ 32)

theorem framesFrom_length (m : Bytes) (c : ℕ) : (framesFrom m c).length = chunks m.length := by
  simp [framesFrom]

theorem framesFrom_getElem? (m : Bytes) (c : ℕ) {t : ℕ} {f : Bytes}
    (h : (framesFrom m c)[t]? = some f) :
    9000 * t < m.length ∧ f = fragment m (9000 * t) (1125 * (c + t) % 2 ^ 32) := by
  have hlt := (List.getElem?_eq_some_iff.mp h).1
  rw [framesFrom_length] at hlt
  rw [framesFrom, List.getElem?_map, List.getElem?_range hlt] at h
  exact ⟨lt_chunks.mp hlt, (Option.some_inj.mp h).symm⟩

/- All fragments but the last one are full. -/
theorem firstByte_framesFrom (m : Bytes) (c t : ℕ) (ht : t < chunks m.length) :
    firstByte (framesFrom m c) t = 9000 * t := by
  induction t with
  | zero => rfl
  | succ t ih =>
    have hlt : 9000 * (t + 1) < m.length := lt_chunks.mp ht
    have hget : (framesFrom m c)[t]? =
        some (fragment m (9000 * t) (1125 * (c + t) % 2 ^ 32)) := by
      rw [framesFrom, List.getElem?_map, List.getElem?_range (by omega)]
      rfl
    have hprev := ih (by omega)
    unfold firstByte at hprev ⊢
    rw [List.take_add_one, hget, List.map_append, List.sum_append, hprev]
    simp only [Option.toList_some, List.map_cons, List.map_nil, List.sum_cons, List.sum_nil]
    rw [fragment_length m _ _ (by omega), chunkLen, fragmentSize]
    omega

theorem testBit_false {x : ℕ} (i : ℕ) (h : x % 65536 < 8192) (hi : 13 ≤ i) (hi' : i < 16) :
    x.testBit i = false := by
  have hmod : x.testBit i = (x % 2 ^ 16).testBit i := by
    rw [Nat.testBit_mod_two_pow, decide_eq_true hi', Bool.true_and]
  rw [hmod]
  apply Nat.testBit_lt_two_pow
  calc x % 2 ^ 16 < 2 ^ 13 := h
    _ ≤ 2 ^ i := Nat.pow_le_pow_right (by decide) hi

/- The counter of an aligned message stays in the 13 bits of the field. -/
theorem aligned_counter {c t : ℕ} (hc : 65536 ∣ c) (ht : t ≤ 7) :
    1125 * (c + t) % 2 ^ 32 % 65536 = 1125 * t := by
  obtain ⟨k, rfl⟩ := hc
  omega

theorem header_framesFrom (m : Bytes) (c : ℕ) {t : ℕ} {f : Bytes}
    (h : (framesFrom m c)[t]? = some f) : ∃ hd, parse f = some hd ∧
      hd.fragmentOffset = 1125 * (c + t) % 2 ^ 32 % 8192 ∧
      hd.moreFragments = ((1125 * (c + t) % 2 ^ 32).testBit 13 ||
        decide (t + 1 < (framesFrom m c).length)) ∧
      hd.dontFragment = (1125 * (c + t) % 2 ^ 32).testBit 14 ∧
      hd.reserved = (1125 * (c + t) % 2 ^ 32).testBit 15 := by
  obtain ⟨hlt, rfl⟩ := framesFrom_getElem? m c h
  have hlast : t + 1 < (framesFrom m c).length ↔ 9000 * t + fragmentSize < m.length := by
    rw [framesFrom_length, lt_chunks, fragmentSize]
    omega
  simp only [hlast]
  exact parse_fragment m _ _ hlt

/- What fragment `t` carries when the counter is right. -/
def piece (m : Bytes) (t : ℕ) : Fragment Byte :=
  ⟨9000 * t, decide (9000 * t + fragmentSize < m.length),
    slice m (9000 * t) (9000 * t + chunkLen m.length (9000 * t))⟩

theorem pieceOf_piece (m : Bytes) {t : ℕ} (h : 9000 * t < m.length) : PieceOf m (piece m t) := by
  unfold piece slice
  rw [Nat.add_sub_cancel_left]
  apply pieceOf_slice
  intro hmore
  have hend : ¬9000 * t + fragmentSize < m.length := of_decide_eq_false hmore
  unfold chunkLen
  omega

theorem piece_stop (m : Bytes) {t : ℕ} (h : 9000 * t < m.length) :
    (piece m t).stop = min (9000 * (t + 1)) m.length := by
  change 9000 * t + (slice m (9000 * t) (9000 * t + chunkLen m.length (9000 * t))).length = _
  rw [chunk_length m _ h, chunkLen, fragmentSize]
  omega

theorem carried_framesFrom (m : Bytes) {c : ℕ}
    (h : ∀ t < chunks m.length, 1125 * (c + t) % 2 ^ 32 % 65536 = 1125 * t)
    (hm : chunks m.length ≤ 8) :
    (framesFrom m c).filterMap carried = (List.range (chunks m.length)).map (piece m) := by
  rw [framesFrom, List.filterMap_map, ← List.filterMap_eq_map]
  apply List.filterMap_congr
  intro t ht
  have hlt := List.mem_range.mp ht
  have hcount := h t hlt
  have hbit := testBit_false 13 (x := 1125 * (c + t) % 2 ^ 32) (by omega) le_rfl (by omega)
  have hstart : 8 * (1125 * (c + t) % 2 ^ 32 % 8192) = 9000 * t := by omega
  simp only [Function.comp_apply, carried, fragmentOf_fragment m _ _ (lt_chunks.mp hlt), hbit,
    hstart, Bool.false_or, Option.map_some]
  rfl

theorem completes_pieces (m : Bytes) (hm : 0 < m.length) (d : Bytes) :
    Completes ((List.range (chunks m.length)).map (piece m)) d ↔ d = m := by
  have hpieces : ∀ g ∈ (List.range (chunks m.length)).map (piece m), PieceOf m g := by
    intro g hg
    obtain ⟨t, ht, rfl⟩ := List.mem_map.mp hg
    exact pieceOf_piece m (lt_chunks.mp (List.mem_range.mp ht))
  have hmem : ∀ t, 9000 * t < m.length →
      piece m t ∈ (List.range (chunks m.length)).map (piece m) := fun t ht =>
    List.mem_map.mpr ⟨t, List.mem_range.mpr (lt_chunks.mpr ht), rfl⟩
  constructor
  · exact Completes.eq_of_pieces fun g hg => .inl (hpieces g hg)
  · rintro rfl
    apply completes_of_pieces hpieces
    · -- The last fragment is the one that holds the last byte.
      refine ⟨piece d ((d.length - 1) / 9000), hmem _ (by omega), decide_eq_false ?_⟩
      unfold fragmentSize
      omega
    · intro x hx
      have ht : 9000 * (x / 9000) < d.length := by omega
      refine ⟨_, hmem _ ht, ?_, ?_⟩
      · change 9000 * (x / 9000) ≤ x
        omega
      · rw [piece_stop d ht]
        omega

theorem mod_of_testBit {x : ℕ} (k : ℕ) (h : x.testBit k = false) :
    x % 2 ^ (k + 1) = x % 2 ^ k := by
  rw [Nat.testBit_eq_decide_div_mod_eq, decide_eq_false_iff_not] at h
  have hzero : x / 2 ^ k % 2 = 0 := by omega
  rw [Nat.mod_pow_succ, hzero, Nat.mul_zero, Nat.add_zero]

/- The flag bits are clear and the field is zero only for a counter that is a
multiple of 65536. -/
theorem aligned_of_header {x y l : ℕ} (hy : y % 65536 = (x + 1125 * l) % 65536) (hl : l ≤ 7)
    (hzero : x % 8192 = 0) (h14 : x.testBit 14 = false) (h15 : x.testBit 15 = false)
    (h13 : y.testBit 13 = false) : x % 65536 = 0 := by
  have hx : x % 65536 = x % 16384 := (mod_of_testBit 15 h15).trans (mod_of_testBit 14 h14)
  have hylow : y % 16384 = y % 8192 := mod_of_testBit 13 h13
  have hbit : x % 16384 = 0 ∨ x % 16384 = 8192 := by omega
  rcases hbit with hbit | hbit
  · rw [hx, hbit]
  · have hword : y % 65536 = 8192 + 1125 * l := by omega
    have hlow : y % 65536 % 16384 = y % 16384 := Nat.mod_mod_of_dvd y (by decide)
    rw [hword, Nat.mod_eq_of_lt (by omega)] at hlow
    omega

/- From one fragment to a later one of the same message. -/
theorem counter_mod (c t : ℕ) :
    1125 * (c + t) % 2 ^ 32 % 65536 = (1125 * (c + 0) % 2 ^ 32 + 1125 * t) % 65536 := by
  have hdvd : 65536 ∣ 2 ^ 32 := by decide
  rw [Nat.mod_mod_of_dvd _ hdvd, Nat.add_mod, Nat.mod_mod_of_dvd _ hdvd, ← Nat.add_mod,
    Nat.add_zero, Nat.mul_add]

theorem dvd_of_counter {c : ℕ} (h : 1125 * (c + 0) % 2 ^ 32 % 65536 = 0) : 65536 ∣ c := by
  have hdvd : 65536 ∣ 1125 * c := by omega
  exact Nat.Coprime.dvd_of_dvd_mul_left (by decide) hdvd

theorem dvd_of_decodes (m : Bytes) (c : ℕ) (hm : 0 < chunks m.length ∧ chunks m.length ≤ 8)
    (h : Decodes m (framesFrom m c)) : 65536 ∣ c := by
  have hget : ∀ t < chunks m.length, ∃ f, (framesFrom m c)[t]? = some f := by
    intro t ht
    exact ⟨_, List.getElem?_eq_getElem (by rw [framesFrom_length]; exact ht)⟩
  obtain ⟨f, hf⟩ := hget 0 hm.1
  obtain ⟨hd, hp, hoff, -, hres, hdf⟩ := h.header 0 f hf
  obtain ⟨hd', hp', hoff', -, hdf', hres'⟩ := header_framesFrom m c hf
  obtain rfl : hd = hd' := Option.some_inj.mp (hp.symm.trans hp')
  have hzero : 1125 * (c + 0) % 2 ^ 32 % 8192 = 0 := by
    have hfirst : firstByte (framesFrom m c) 0 = 0 := rfl
    omega
  obtain ⟨g, hg⟩ := hget (chunks m.length - 1) (by omega)
  obtain ⟨hd₂, hp₂, -, hmore, -, -⟩ := h.header _ g hg
  obtain ⟨hd₃, hp₃, -, hmore', -, -⟩ := header_framesFrom m c hg
  obtain rfl : hd₂ = hd₃ := Option.some_inj.mp (hp₂.symm.trans hp₃)
  have hend : ¬chunks m.length - 1 + 1 < (framesFrom m c).length := by
    rw [framesFrom_length]
    omega
  rw [hmore, decide_eq_false hend, Bool.or_false] at hmore'
  exact dvd_of_counter (aligned_of_header (counter_mod c _) (by omega) hzero
    (hdf'.symm.trans hdf) (hres'.symm.trans hres) hmore'.symm)

/-- The fragments of one message decode to it exactly if the counter starts at
a multiple of 65536 fragments. -/
theorem decodes_framesFrom (m : Bytes) (c : ℕ) (hpos : 0 < m.length) (hm : m.length ≤ 65515) :
    Decodes m (framesFrom m c) ↔ 65536 ∣ c := by
  have hchunks : 0 < chunks m.length ∧ chunks m.length ≤ 8 := by
    unfold chunks
    omega
  constructor
  · exact dvd_of_decodes m c hchunks
  · intro hdvd
    have hcount : ∀ t < chunks m.length, 1125 * (c + t) % 2 ^ 32 % 65536 = 1125 * t :=
      fun t ht => aligned_counter hdvd (by omega)
    constructor
    · intro t f hf
      have hlt : t < chunks m.length := lt_chunks.mpr (framesFrom_getElem? m c hf).1
      obtain ⟨hd, hp, hoff, hmore, hdf, hres⟩ := header_framesFrom m c hf
      have hbits : ∀ i, 13 ≤ i → i < 16 → (1125 * (c + t) % 2 ^ 32).testBit i = false := by
        intro i hi hi'
        have hc := hcount t hlt
        exact testBit_false i (by omega) hi hi'
      refine ⟨hd, hp, ?_, ?_, ?_, ?_⟩
      · have hc := hcount t hlt
        rw [firstByte_framesFrom m c t hlt, hoff]
        omega
      · rw [hmore, hbits 13 le_rfl (by omega), Bool.false_or]
      · rw [hres, hbits 15 (by omega) (by omega)]
      · rw [hdf, hbits 14 (by omega) (by omega)]
    · intro d
      rw [carried_framesFrom m hcount hchunks.2]
      exact completes_pieces m hpos d

/-- Message `j` of a run is decoded from its fragments exactly if the number of
fragments sent for the messages before it is a multiple of 65536. -/
theorem decodes_iff_aligned {tr : List (Event n)} {s : State n} (h : system.Run tr s) {j : ℕ}
    {m : Bytes} {fs : List Bytes} (hj : (transmissions tr)[j]? = some (m, fs))
    (hpos : 1 ≤ m.length) (hm : m.length ≤ 65515) :
    Decodes m fs ↔ 65536 ∣ fragmentCount ((messages tr).take j) := by
  rw [frames_eq h hj]
  exact decodes_framesFrom m _ hpos hm

/-! ### Both links of `main`, without losses -/

theorem wireText_links_length (k : ℕ) :
    (wireText ((List.finRange 2).flatMap fun i => (linkPacket i (k % 255)).sourceId)
      (StdText.frameText (k % 255 : ℕ))
      ((List.finRange 2).flatMap fun i => (linkPacket i (k % 255)).data)).length = 12315 := by
  have hids : ((List.finRange 2).flatMap fun i => (linkPacket i (k % 255)).sourceId).length =
      20 := by
    rw [List.length_flatMap]
    rfl
  have hdata : ((List.finRange 2).flatMap fun i => (linkPacket i (k % 255)).data).length =
      12286 := by
    rw [List.length_flatMap]
    simp only [linkPacket, List.length_replicate]
    rfl
  have hnumber : (StdText.frameText (k % 255 : ℕ)).length = 2 := by
    rw [StdText.frameText_byte _ (by omega)]
    rfl
  rw [wireText_length, hids, hdata, hnumber]

theorem exists_linkRun (r : ℕ) :
    ∃ tr s, (system (n := 2)).Run tr s ∧
      (∀ i, pushed i tr = (List.range r).map fun k => linkPacket i (k % 255)) ∧
      (messages tr).length = r ∧ ∀ m ∈ messages tr, m.length = 12315 := by
  obtain ⟨tr, s, h, hp, hr⟩ := exists_rounds (fun i k => linkPacket i (k % 255)) r r le_rfl
  have hmessage := fun k => (@mergeRound_lossless 2 (by decide) (fun i k => linkPacket i (k % 255))
    (fun i k => ⟨rfl, linkPacket_ne_nil i _⟩) k).2
  have hmessages : messages tr = (List.range r).map fun k =>
      wireText ((List.finRange 2).flatMap fun i => (linkPacket i (k % 255)).sourceId)
        (StdText.frameText (k % 255 : ℕ))
        ((List.finRange 2).flatMap fun i => (linkPacket i (k % 255)).data) := by
    rw [messages_eq, rounds_eq h (extends_range hp), List.filterMap_map, hr,
      ← List.filterMap_eq_map]
    exact List.filterMap_congr fun k _ => hmessage k
  refine ⟨tr, s, h, hp, by rw [hmessages, List.length_map, List.length_range], ?_⟩
  intro m hm
  rw [hmessages] at hm
  obtain ⟨k, -, rfl⟩ := List.mem_map.mp hm
  exact wireText_links_length k

theorem fragmentCount_const {ms : List Bytes} {l : ℕ} (h : ∀ m ∈ ms, m.length = l) :
    fragmentCount ms = ms.length * chunks l := by
  unfold fragmentCount
  rw [List.map_congr_left (g := fun _ => chunks l) fun m hm => by rw [h m hm]]
  simp

theorem getElem?_transmissions (tr : List (Event n)) {j : ℕ} (hj : j < (messages tr).length) :
    ∃ m fs, (transmissions tr)[j]? = some (m, fs) ∧ m ∈ messages tr := by
  rw [messages, List.length_map] at hj
  refine ⟨_, _, List.getElem?_eq_getElem hj, ?_⟩
  exact List.mem_map.mpr ⟨_, List.getElem_mem hj, rfl⟩

/- The 32769th message, behind 65536 fragments. -/
theorem decodes_iff_aligned_links :
    ∃ tr s m fs, (system (n := 2)).Run tr s ∧ (transmissions tr)[32768]? = some (m, fs) ∧
      Decodes m fs := by
  obtain ⟨tr, s, h, -, hlen, hsize⟩ := exists_linkRun 32769
  obtain ⟨m, fs, hj, hmem⟩ := getElem?_transmissions tr (j := 32768) (by omega)
  have hm := hsize m hmem
  refine ⟨tr, s, m, fs, h, hj, (decodes_iff_aligned h hj (by omega) (by omega)).mpr ?_⟩
  rw [fragmentCount_const fun m' hm' => hsize m' (List.mem_of_mem_take hm'), List.length_take,
    hlen]
  decide

/-- Already the second message does not come through. -/
theorem second_message_not_decoded :
    ∃ tr s m fs, (system (n := 2)).Run tr s ∧
      (∀ i, pushed i tr = (List.range 2).map fun k => linkPacket i (k % 255)) ∧
      (transmissions tr)[1]? = some (m, fs) ∧ m.length = 12315 ∧ ¬Decodes m fs := by
  obtain ⟨tr, s, h, hp, hlen, hsize⟩ := exists_linkRun 2
  obtain ⟨m, fs, hj, hmem⟩ := getElem?_transmissions tr (j := 1) (by omega)
  have hm := hsize m hmem
  refine ⟨tr, s, m, fs, h, hp, hj, hm, ?_⟩
  rw [frames_eq h hj, show ((List.range (chunks m.length)).map fun t =>
    fragment m (9000 * t) (1125 * (fragmentCount ((messages tr).take 1) + t) % 2 ^ 32)) =
    framesFrom m (fragmentCount ((messages tr).take 1)) from rfl,
    decodes_framesFrom m _ (by omega) (by omega),
    fragmentCount_const fun m' hm' => hsize m' (List.mem_of_mem_take hm'), List.length_take, hlen]
  decide

end OSwitch.Concatinator
