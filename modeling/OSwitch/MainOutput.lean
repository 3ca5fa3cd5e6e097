import OSwitch.FragmentLoop
import OSwitch.HeaderChecksum
import OSwitch.MainMessages
import OSwitch.MessageMixing

/-!
# The stream of packets on the output interface

Behind the headers the packets of a run are its messages, byte for byte and
without a gap. The offset field of the headers goes on from packet to packet and
not from message to message, and where the counter passes 13 bits it spills into
the flags.
-/

namespace OSwitch.Concatinator
open Trace Wire Rfc791 Fragmentation IpHeader

variable {n : ℕ}

/- The packet with number `q` of a run; `more` says that its message goes on behind it. -/
structure Emission (q : ℕ) (more : Bool) (f : Bytes) : Prop where
  header : ∃ hd, parse f = some hd ∧ hd.version = 4 ∧ 4 * hd.ihl = 20 ∧
    hd.totalLength = f.length ∧ hd.identification = 54321 ∧
    hd.fragmentOffset = 1125 * q % 8192 ∧
    hd.moreFragments = ((1125 * q).testBit 13 || more) ∧
    hd.dontFragment = (1125 * q).testBit 14 ∧ hd.reserved = (1125 * q).testBit 15
  length : 20 < f.length ∧ f.length ≤ 9020
  checksum : Rfc1071.sum (Rfc1071.words be16 (f.take 20)) = 65535

/- The packets `fs` convey the message `m` behind `c` other packets. The loop of the
source, in `int` and `size_t`, sends them and leaves its counter for the next ones. -/
structure Conveys (c : ℕ) (m : Bytes) (fs : List Bytes) : Prop where
  loop : ∃ pieces, fragmentLoop m (chunks m.length + 1) 0 (1125 * c % 2 ^ 32) =
      .ok (pieces, 1125 * (c + fs.length) % 2 ^ 32) ∧ pieces.map Piece.packet = fs
  payload : fs.flatMap (List.drop 20) = m
  packet : ∀ t f, fs[t]? = some f → Emission (c + t) (decide (t + 1 < fs.length)) f

theorem testBit_counter (x : ℕ) {i : ℕ} (hi : i < 32) : (x % 2 ^ 32).testBit i = x.testBit i := by
  rw [Nat.testBit_mod_two_pow, decide_eq_true hi, Bool.true_and]

theorem emission_fragment {m : Bytes} {i : ℕ} (hi : i < m.length) (q : ℕ) :
    Emission q (decide (i + fragmentSize < m.length)) (fragment m i (1125 * q % 2 ^ 32)) := by
  have hlen := fragment_length m i (1125 * q % 2 ^ 32) hi
  have hle := chunkLen_le m.length i
  have hpos : 0 < chunkLen m.length i := by
    unfold chunkLen fragmentSize
    omega
  have htotal : (sizeofIphdr + chunkLen m.length i) % 65536 = 20 + chunkLen m.length i := by
    unfold sizeofIphdr
    omega
  have hfragment := fragment_eq m i (1125 * q % 2 ^ 32) hi
  constructor
  case header =>
    rw [hlen, hfragment, parse_headerBytes]
    refine ⟨_, rfl, rfl, rfl, htotal, rfl, ?_, ?_, ?_, ?_⟩
    · rw [flagsWord_offset]
      exact Nat.mod_mod_of_dvd _ (by decide)
    · rw [flagsWord_testBit _ _ 13 (by omega), testBit_counter _ (by omega)]
      simp
    · rw [flagsWord_testBit _ _ 14 (by omega), testBit_counter _ (by omega)]
      simp
    · rw [flagsWord_testBit _ _ 15 (by omega), testBit_counter _ (by omega)]
      simp
  case length => omega
  case checksum =>
    rw [hfragment, List.take_left' (headerBytes_length ..), ← Rfc1071.map_swap16_words,
      ← Rfc1071.swap16_sum (Rfc1071.words_lt Rfc1071.le16_lt _), sum_headerBytes]
    rfl

/- The fragments of one message convey it. -/
theorem payload_framesFrom (m : Bytes) (c : ℕ) : (framesFrom m c).flatMap (List.drop 20) = m := by
  have hpieces : framesFrom m c = (piecesOf m (1125 * c % 2 ^ 32)).map Piece.packet := by
    rw [framesFrom, piecesOf, List.map_map]
    apply List.map_congr_left
    intro t _
    change _ = fragment m (9000 * t) ((1125 * c % 2 ^ 32 + 1125 * t) % 2 ^ 32)
    congr 1
    omega
  rw [hpieces, List.flatMap_map]
  exact piecesOf_flatMap m _

theorem conveys_framesFrom {m : Bytes} (hlen : m.length < 2 ^ 31 - 9000) (c : ℕ) :
    Conveys c m (framesFrom m c) := by
  have hcount := framesFrom_length m c
  constructor
  case loop =>
    have hlt : 1125 * c % 2 ^ 32 < 2 ^ 32 := Nat.mod_lt _ (by decide)
    obtain ⟨pieces, hloop, hpackets⟩ := fragmentLoop_refines hlen hlt
    have hnext : (1125 * c % 2 ^ 32 + 1125 * chunks m.length) % 2 ^ 32 =
        1125 * (c + (framesFrom m c).length) % 2 ^ 32 := by
      rw [hcount]
      omega
    rw [sendFragments_eq m _ hlt] at hloop hpackets
    rw [hnext] at hloop
    refine ⟨pieces, hloop, hpackets.trans (List.map_congr_left ?_)⟩
    intro t _
    congr 1
    omega
  case payload => exact payload_framesFrom m c
  case packet =>
    intro t f hf
    obtain ⟨hi, rfl⟩ := framesFrom_getElem? m c hf
    have hmore : 9000 * t + fragmentSize < m.length ↔ t + 1 < (framesFrom m c).length := by
      rw [hcount, lt_chunks]
      unfold fragmentSize
      omega
    have hone := emission_fragment hi (c + t)
    rw [decide_eq_decide.mpr hmore] at hone
    exact hone

theorem payload_emitted {tr : List (Event n)}
    (h : ∀ tx ∈ transmissions tr, tx.2.flatMap (List.drop 20) = tx.1) :
    (emitted tr).flatMap (List.drop 20) = (messages tr).flatten := by
  rw [emitted, messages, List.flatMap_assoc, ← List.flatMap_def]
  exact List.flatMap_congr h

/-- What is sent in a run is the messages, in the order in which they were put
together, as long as the index of the loop does not overflow. The headers are as
they should be but for the offset, which counts the packets of the whole run, and
the flags, into which it spills. -/
theorem emitted_stream {tr : List (Event n)} {s : State n} (h : system.Run tr s)
    (hlen : ∀ m ∈ messages tr, m.length < 2 ^ 31 - 9000) :
    (emitted tr).flatMap (List.drop 20) = (messages tr).flatten ∧
      ∀ j m fs, (transmissions tr)[j]? = some (m, fs) →
        Conveys (fragmentCount ((messages tr).take j)) m fs := by
  have hconveys : ∀ j m fs, (transmissions tr)[j]? = some (m, fs) →
      Conveys (fragmentCount ((messages tr).take j)) m fs := by
    intro j m fs hj
    have hm : m ∈ messages tr := List.mem_of_getElem? (getElem?_messages hj)
    rw [frames_eq h hj]
    exact conveys_framesFrom (hlen m hm) _
  refine ⟨payload_emitted ?_, hconveys⟩
  intro tx htx
  obtain ⟨j, hj⟩ := List.getElem?_of_mem htx
  exact (hconveys j tx.1 tx.2 hj).payload

/- The second message of the links of `main` begins behind two packets. -/
theorem emitted_stream_links : ∃ tr s m fs, (system (n := 2)).Run tr s ∧
    (transmissions tr)[1]? = some (m, fs) ∧ Conveys 2 m fs := by
  obtain ⟨tr, s, h, -, hlen, hsize⟩ := exists_linkRun 3
  obtain ⟨m, fs, hj, -⟩ := getElem?_transmissions tr (j := 1) (by omega)
  have hbound : ∀ m ∈ messages tr, m.length < 2 ^ 31 - 9000 := by
    intro m hm
    rw [hsize m hm]
    decide
  have hcount : fragmentCount ((messages tr).take 1) = 2 := by
    rw [fragmentCount_const fun m hm => hsize m (List.mem_of_mem_take hm), List.length_take, hlen]
    rfl
  have hconveys := (emitted_stream h hbound).2 1 m fs hj
  rw [hcount] at hconveys
  exact ⟨tr, s, m, fs, h, hj, hconveys⟩

end OSwitch.Concatinator

/-! ### The messages of the program -/

namespace OSwitch.Main
open Trace Wire SenderSocket Concatinator Fragmentation
open ReceiverSocket (Recv)

variable {n : ℕ} {ids msgs : Fin n → Bytes} {traffic : Fin n → Recv → Prop}
  {tr : List (Event n)} {s : State n}

theorem joined_length (hid : ∀ i, (ids i).length = 10)
    (hmsg : ∀ i, msgs i = msg1 ∨ msgs i = msg2) (k : ℕ) :
    (joined ids msgs k).length = 9 + 6153 * n := by
  have hwell : ∀ p ∈ (List.finRange n).map fun i => packetOf (ids i) (msgs i) k,
      WellFormed p ∧ p.frameNumber = ((k % 255 : ℕ) : ℤ) := by
    intro p hp
    obtain ⟨i, -, rfl⟩ := List.mem_map.mp hp
    exact ⟨packetOf_wellFormed (hid i) (hmsg i) k, rfl⟩
  have hone : OneFrame ((k % 255 : ℕ) : ℤ) ((List.finRange n).map fun i =>
      packetOf (ids i) (msgs i) k) :=
    { nonneg := by omega
      le := by omega
      number := fun p hp => (hwell p hp).2
      ids := fun p hp => (hwell p hp).1.id
      data := fun p hp => (hwell p hp).1.data }
  rw [joined, concatenated_length hone, List.length_map, List.length_finRange]

/-- With up to ten senders, no losses and receivers that ignore the foreign traffic,
message `j` is put together again by RFC 791 exactly if the fragments of all
messages before it fill whole cycles of the counter. -/
theorem decodes_iff_lossless (hn : 0 < n) (hn' : n ≤ 10) (hid : ∀ i, (ids i).length = 10)
    (hmsg : ∀ i, msgs i = msg1 ∨ msgs i = msg2)
    (htraffic : ∀ i r, traffic i r → Harmless (ids i) r) (h : (system ids msgs traffic).Run tr s)
    (hl : ∀ i, lostOn i tr = 0) {j : ℕ} {m : Bytes} {fs : List Bytes}
    (hj : (transmissions (merging tr))[j]? = some (m, fs)) :
    m = joined ids msgs j ∧ (Decodes m fs ↔ 65536 ∣ j * chunks (9 + 6153 * n)) := by
  have hmessages := messages_of_lossless hn hid hmsg htraffic h hl
  have hget := getElem?_messages hj
  have hlt := (List.getElem?_eq_some_iff.mp hget).1
  rw [hmessages, List.length_map, List.length_range] at hlt
  rw [hmessages, List.getElem?_map, List.getElem?_range hlt] at hget
  obtain rfl : joined ids msgs j = m := Option.some_inj.mp hget
  refine ⟨rfl, ?_⟩
  have hlen := joined_length hid hmsg j
  have hbefore : fragmentCount ((messages (merging tr)).take j) = j * chunks (9 + 6153 * n) := by
    have hsame : ∀ m ∈ (messages (merging tr)).take j, m.length = 9 + 6153 * n := by
      intro m hm
      have hmem := List.mem_of_mem_take hm
      rw [hmessages] at hmem
      obtain ⟨k, -, rfl⟩ := List.mem_map.mp hmem
      exact joined_length hid hmsg k
    rw [fragmentCount_const hsame, List.length_take, hmessages, List.length_map,
      List.length_range, min_eq_left hlt.le]
  rw [frames_eq (run_merging h) hj, hbefore]
  exact decodes_framesFrom _ _ (by omega) (by omega)

/- The second message of the links of `main`. -/
theorem decodes_iff_lossless_links : ∃ tr s m fs, (system linkId linkMsg linkTraffic).Run tr s ∧
    (transmissions (merging tr))[1]? = some (m, fs) ∧ m = joined linkId linkMsg 1 ∧
    ¬Decodes m fs := by
  obtain ⟨tr, s, h, hs, ha, hb, hlost⟩ := exists_settled_links 2 2
  obtain ⟨i, hi⟩ :=
    exists_used_up (by decide) linkId_length linkMsg_cases linkTraffic_harmless h hlost hs
  have htwo : 2 ≤ (rounds (merging tr)).length := by
    match i with
    | 0 => omega
    | 1 => omega
  have hlen : (messages (merging tr)).length = (rounds (merging tr)).length := by
    rw [messages_of_lossless (by decide) linkId_length linkMsg_cases linkTraffic_harmless h hlost,
      List.length_map,
      List.length_range]
  obtain ⟨m, fs, hj, -⟩ := getElem?_transmissions (merging tr) (j := 1) (by omega)
  obtain ⟨hm, hdecodes⟩ := decodes_iff_lossless (by decide) (by decide) linkId_length
    linkMsg_cases linkTraffic_harmless h hlost hj
  refine ⟨tr, s, m, fs, h, hj, hm, ?_⟩
  rw [hdecodes]
  decide

end OSwitch.Main
