import Mathlib.Data.List.Perm.Subperm
import OSwitch.Transmission

/-!
# What a receiver makes of the fragments

All messages go out under one identification, so a receiver keeps their
fragments in one buffer and tells them apart by their position alone. As the
counter runs on, the fragments of a later message begin where the first one has
ended; but the offset field holds 13 bits of it, and the positions come back.
-/

namespace OSwitch.Concatinator
open Trace Wire Rfc791 Fragmentation

variable {n : ℕ}

/-- All packets of the run, in the order of their emission. -/
def emitted (tr : List (Event n)) : List Bytes := (transmissions tr).flatMap Prod.snd

/-- The fragments of the first message lie in the range of the offset field, and
every later fragment of the run begins beyond the end of that message. -/
def Separated : List Bytes → Prop
  | [] => True
  | m :: ms => chunks m.length ≤ 8 ∧
    ∀ u, chunks m.length ≤ u → u < fragmentCount (m :: ms) → m.length < 8 * (1125 * u % 8192)

theorem fragmentOf_framesFrom (m : Bytes) (c : ℕ) {t : ℕ} (h : t < chunks m.length) :
    fragmentOf (fragment m (9000 * t) (1125 * (c + t) % 2 ^ 32)) = some (flowId,
      ⟨8 * (1125 * (c + t) % 8192),
        (1125 * (c + t) % 2 ^ 32).testBit 13 || decide (9000 * t + fragmentSize < m.length),
        slice m (9000 * t) (9000 * t + chunkLen m.length (9000 * t))⟩) := by
  rw [fragmentOf_fragment m _ _ (lt_chunks.mp h), Nat.mod_mod_of_dvd _ (by decide)]

/- A fragment of the first message, with the position it has there. -/
theorem fragmentOf_first (m : Bytes) (hm : chunks m.length ≤ 8) {t : ℕ}
    (h : t < chunks m.length) :
    fragmentOf (fragment m (9000 * t) (1125 * (0 + t) % 2 ^ 32)) = some (flowId, piece m t) := by
  have hcount := aligned_counter (c := 0) (t := t) (Nat.dvd_zero _) (by omega)
  have hbit := testBit_false 13 (x := 1125 * (0 + t) % 2 ^ 32) (by omega) le_rfl (by omega)
  have hstart : 8 * (1125 * (0 + t) % 8192) = 9000 * t := by omega
  rw [fragmentOf_framesFrom m 0 h, hbit, hstart, Bool.false_or]
  rfl

theorem chunks_le_fragmentCount {m : Bytes} {ms : List Bytes} {j : ℕ} (hj : 0 < j) :
    chunks m.length ≤ fragmentCount ((m :: ms).take j) := by
  obtain ⟨i, rfl⟩ := Nat.exists_eq_succ_of_ne_zero hj.ne'
  simp [fragmentCount]

theorem fragmentCount_lt {ms : List Bytes} {j t : ℕ} {m : Bytes} (hj : ms[j]? = some m)
    (ht : t < chunks m.length) : fragmentCount (ms.take j) + t < fragmentCount ms := by
  have hlt := (List.getElem?_eq_some_iff.mp hj).1
  have hsplit : ms = ms.take j ++ m :: ms.drop (j + 1) := by
    rw [← (List.getElem?_eq_some_iff.mp hj).2, ← List.drop_eq_getElem_cons hlt,
      List.take_append_drop]
  conv_rhs => rw [hsplit]
  simp only [fragmentCount, List.map_append, List.map_cons, List.sum_append, List.sum_cons]
  omega

/- In a separated run every packet is a piece of the first message or lies
beyond its end. -/
theorem pieceOf_or_beyond {tr : List (Event n)} {s : State n} (h : system.Run tr s) {m : Bytes}
    {ms : List Bytes} (hms : messages tr = m :: ms) (hs : Separated (m :: ms)) {f : Bytes}
    (hf : f ∈ emitted tr) {k : BufferId} {g : Fragment Byte} (hg : fragmentOf f = some (k, g)) :
    PieceOf m g ∨ Beyond m g := by
  obtain ⟨⟨m', fs⟩, htx, hfs⟩ := List.mem_flatMap.mp hf
  obtain ⟨j, hj⟩ := List.mem_iff_getElem?.mp htx
  have hmsg := getElem?_messages hj
  rw [frames_eq h hj] at hfs
  obtain ⟨t, ht, rfl⟩ := List.mem_map.mp hfs
  have hlt := List.mem_range.mp ht
  rw [hms] at hmsg hg
  by_cases hzero : j = 0
  · subst hzero
    obtain rfl : m = m' := Option.some_inj.mp hmsg
    rw [show fragmentCount ((m :: ms).take 0) = 0 from rfl, fragmentOf_first m hs.1 hlt] at hg
    cases hg
    exact .inl (pieceOf_piece m (lt_chunks.mp hlt))
  · have hle : chunks m.length ≤ fragmentCount ((m :: ms).take j) :=
      chunks_le_fragmentCount (by omega)
    have hfar := hs.2 (fragmentCount ((m :: ms).take j) + t) (by omega) (fragmentCount_lt hmsg hlt)
    rw [fragmentOf_framesFrom m' _ hlt] at hg
    cases hg
    exact .inr hfar

/-- While the fragments are separated, whatever part of them arrives and in
whatever order, only whole messages are delivered. -/
theorem delivered_whole {tr : List (Event n)} {s : State n} (h : system.Run tr s)
    (hs : Separated (messages tr)) {rtr : List (Bytes × Option Bytes)} {st : Buffers}
    (hr : receiver.Run rtr st) (ha : (arrived rtr).Subperm (emitted tr)) :
    ∀ d ∈ delivered rtr, d ∈ messages tr := by
  cases hms : messages tr with
  | nil =>
    have hnone : rtr = [] := by
      have htx : transmissions tr = [] := List.map_eq_nil_iff.mp hms
      rw [emitted, htx, List.flatMap_nil] at ha
      exact List.map_eq_nil_iff.mp (List.subperm_nil.mp ha)
    subst hnone
    intro d hd
    cases hd
  | cons m ms =>
    rw [hms] at hs
    have hpieces : ∀ f ∈ arrived rtr, ∀ k g, fragmentOf f = some (k, g) →
        PieceOf m g ∨ Beyond m g := fun f hf k g hg =>
      pieceOf_or_beyond h hms hs (ha.subset hf) hg
    intro d hd
    rw [(delivered_eq_of_pieces hr hpieces).2 d hd]
    exact List.mem_cons_self

theorem mem_emitted {tr : List (Event n)} {s : State n} (h : system.Run tr s) {j t : ℕ}
    {m : Bytes} {fs : List Bytes} (hj : (transmissions tr)[j]? = some (m, fs))
    (ht : t < chunks m.length) :
    fragment m (9000 * t) (1125 * (fragmentCount ((messages tr).take j) + t) % 2 ^ 32) ∈
      emitted tr := by
  refine List.mem_flatMap.mpr ⟨(m, fs), List.mem_of_getElem? hj, ?_⟩
  change _ ∈ fs
  rw [frames_eq h hj]
  exact List.mem_map.mpr ⟨t, List.mem_range.mpr ht, rfl⟩

/- The receiver gets one fragment, holds it, and delivers with the next one. -/
theorem receive_two {f f' : Bytes} {k : BufferId} {g g' : Fragment Byte} {d : Bytes}
    (hf : fragmentOf f = some (k, g)) (hf' : fragmentOf f' = some (k, g'))
    (hno : ∀ d, ¬Completes [g] d) (hd : Completes [g, g'] d) :
    ∃ rtr st, receiver.Run rtr st ∧ arrived rtr = [f, f'] ∧ delivered rtr = [d] := by
  have h0 : receiver.Run [] (fun _ => []) := .init rfl
  have h1 := h0.snoc (show Receive (fun _ => []) (f, none) _ from .hold hf hno)
  refine ⟨_, _, h1.snoc (show Receive _ (f', some d) _ from .deliver hf' ?_), rfl, rfl⟩
  rw [Function.update_self]
  exact hd

/-- A last fragment whose position, as the field holds it, lies within the first
fragment of the first message: the receiver joins the two. -/
theorem mixed_delivery (m m' : Bytes) (c t start : ℕ) (hm : 9000 ≤ m.length)
    (ht : t < chunks m'.length) (hlast : m'.length ≤ 9000 * t + fragmentSize)
    (hmore : (1125 * (c + t) % 2 ^ 32).testBit 13 = false)
    (hstart : 8 * (1125 * (c + t) % 8192) = start) (hpos : 0 < start) (hreach : start ≤ 9000) :
    ∃ rtr st d, receiver.Run rtr st ∧
      arrived rtr = [fragment m' (9000 * t) (1125 * (c + t) % 2 ^ 32),
        fragment m (9000 * 0) (1125 * (0 + 0) % 2 ^ 32)] ∧
      delivered rtr = [d] ∧ d.length = start + (m'.length - 9000 * t) := by
  have hlt : 9000 * t < m'.length := lt_chunks.mp ht
  have hend : decide (9000 * t + fragmentSize < m'.length) = false :=
    decide_eq_false (not_lt.mpr hlast)
  have hfront := fragmentOf_framesFrom m 0 (t := 0) (chunks_pos (by omega))
  have hrest := fragmentOf_framesFrom m' c ht
  rw [hstart, hmore, hend, Bool.or_false] at hrest
  have hlen : (slice m (9000 * 0) (9000 * 0 + chunkLen m.length (9000 * 0))).length = 9000 := by
    rw [chunk_length m _ (by omega), chunkLen, fragmentSize]
    omega
  have hlen' : (slice m' (9000 * t) (9000 * t + chunkLen m'.length (9000 * t))).length =
      m'.length - 9000 * t := by
    rw [chunk_length m' _ hlt, chunkLen]
    omega
  have hcover : start ≤
      (slice m (9000 * 0) (9000 * 0 + chunkLen m.length (9000 * 0))).length := by omega
  obtain ⟨rtr, st, hr, harr, hdel⟩ := receive_two hrest hfront (not_completes_singleton hpos)
    (completes_overlap rfl rfl hcover)
  refine ⟨rtr, st, _, hr, harr, hdel, ?_⟩
  rw [List.length_append, List.length_take, hlen, hlen', Nat.min_eq_left hreach]

/-! ### Both links of `main` -/

theorem separated_links {ms : List Bytes} (hlen : ms.length = 4)
    (hsize : ∀ m ∈ ms, m.length = 12315) : Separated ms := by
  cases ms with
  | nil => trivial
  | cons m ms =>
    have hcount := fragmentCount_const hsize
    rw [hlen] at hcount
    rw [Separated, hcount, hsize m List.mem_cons_self]
    decide

theorem subperm_emitted {tr : List (Event n)} {m : Bytes} {fs : List Bytes}
    (hj : (transmissions tr)[0]? = some (m, fs)) : fs.Subperm (emitted tr) := by
  cases htx : transmissions tr with
  | nil => simp [htx] at hj
  | cons x xs =>
    rw [htx] at hj
    obtain rfl : x = (m, fs) := Option.some_inj.mp hj
    rw [emitted, htx, List.flatMap_cons]
    exact (List.sublist_append_left _ _).subperm

/- Four messages of both links are separated; the first one is delivered. -/
theorem delivered_whole_links :
    ∃ tr s rtr st m, (system (n := 2)).Run tr s ∧ (messages tr).length = 4 ∧
      receiver.Run rtr st ∧ delivered rtr = [m] ∧ m ∈ messages tr := by
  obtain ⟨tr, s, h, -, hlen, hsize⟩ := exists_linkRun 4
  obtain ⟨m, fs, hj, hmem⟩ := getElem?_transmissions tr (j := 0) (by omega)
  have hm := hsize m hmem
  have hpos : 0 < m.length := by omega
  have hchunks : chunks m.length = 2 := by
    rw [hm]
    rfl
  have hfirst := fun t (ht : t < 2) => fragmentOf_first m (t := t) (by omega) (by omega)
  have hmore : (piece m 0).more = true := by
    simp [piece, hm, fragmentSize]
  have hcomplete := (completes_pieces m hpos m).mpr rfl
  rw [hchunks, show List.range 2 = [0, 1] from rfl] at hcomplete
  obtain ⟨rtr, st, hr, harr, hdel⟩ := receive_two (hfirst 0 (by decide)) (hfirst 1 (by decide))
    (not_completes_of_more fun g hg => by rw [List.mem_singleton.mp hg]; exact hmore) hcomplete
  have hsub := subperm_emitted hj
  rw [frames_eq h hj, hchunks, List.take_zero, show List.range 2 = [0, 1] from rfl] at hsub
  refine ⟨tr, s, rtr, st, m, h, hlen, hr, hdel, ?_⟩
  apply delivered_whole h (separated_links hlen hsize) hr
  · rw [harr]
    exact hsub
  · rw [hdel]
    exact List.mem_singleton.mpr rfl

/-- Of eight messages the last fragment of the last one passes for the rest of
the first one: delivered are 7243 bytes that nobody sent. -/
theorem messages_mixed :
    ∃ tr s rtr st d, (system (n := 2)).Run tr s ∧
      (∀ i, pushed i tr = (List.range 8).map fun k => linkPacket i (k % 255)) ∧
      receiver.Run rtr st ∧ (arrived rtr).Subperm (emitted tr) ∧ d ∈ delivered rtr ∧
      d.length = 7243 ∧ d ∉ messages tr := by
  obtain ⟨tr, s, h, hp, hlen, hsize⟩ := exists_linkRun 8
  obtain ⟨m, fs, hj, hmem⟩ := getElem?_transmissions tr (j := 0) (by omega)
  obtain ⟨m', fs', hj', hmem'⟩ := getElem?_transmissions tr (j := 7) (by omega)
  have hm := hsize m hmem
  have hm' := hsize m' hmem'
  have hcount : fragmentCount ((messages tr).take 7) = 14 := by
    rw [fragmentCount_const fun x hx => hsize x (List.mem_of_mem_take hx), List.length_take, hlen]
    rfl
  have hlt : 0 < chunks m.length := by
    rw [hm]
    decide
  have hlt' : 1 < chunks m'.length := by
    rw [hm']
    decide
  have hin := mem_emitted h hj hlt
  have hin' := mem_emitted h hj' hlt'
  rw [List.take_zero, show fragmentCount [] = 0 from rfl] at hin
  rw [hcount] at hin'
  obtain ⟨rtr, st, d, hr, harr, hdel, hd⟩ := mixed_delivery m m' 14 1 3928 (by omega) hlt'
    (by rw [hm']; decide) (by decide) rfl (by decide) (by decide)
  rw [hm'] at hd
  refine ⟨tr, s, rtr, st, d, h, hp, hr, ?_, ?_, hd, ?_⟩
  · rw [harr]
    apply List.subperm_of_subset
    · have hne : fragment m' (9000 * 1) (1125 * (14 + 1) % 2 ^ 32) ≠
          fragment m (9000 * 0) (1125 * (0 + 0) % 2 ^ 32) := by
        intro he
        have hlens := congrArg List.length he
        rw [fragment_length m' _ _ (lt_chunks.mp hlt'), fragment_length m _ _ (lt_chunks.mp hlt),
          hm, hm'] at hlens
        cases hlens
      exact List.nodup_cons.mpr ⟨fun hmem => hne (List.mem_singleton.mp hmem),
        List.nodup_singleton _⟩
    · exact List.cons_subset.mpr ⟨hin', List.cons_subset.mpr ⟨hin, List.nil_subset _⟩⟩
  · rw [hdel]
    exact List.mem_singleton.mpr rfl
  · intro hmem
    have hnone := hsize d hmem
    omega

end OSwitch.Concatinator
