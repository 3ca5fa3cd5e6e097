import OSwitch.MergeProperties

/-!
# What a message tells about its packets

`"[" + ids + "]---> " + number + data` has neither counts nor lengths, and its
brackets may occur in ids and data. With ids of 10 bytes and data of 6143 bytes
the length alone gives the number of packets, and everything else follows.
-/

namespace OSwitch.Concatinator
open Wire StdText

variable {n : ℕ}

/-- The message that the loop builds from packets with this frame number. -/
def concatenated (frameNumber : ℤ) (ps : List FpgaPacket) : Bytes :=
  wireText (ps.flatMap FpgaPacket.sourceId) (frameText frameNumber) (ps.flatMap FpgaPacket.data)

/-- Packets that go into one message, as the receivers push them. -/
structure OneFrame (frameNumber : ℤ) (ps : List FpgaPacket) : Prop where
  nonneg : 0 ≤ frameNumber
  le : frameNumber ≤ 255
  number : ∀ p ∈ ps, p.frameNumber = frameNumber
  ids : ∀ p ∈ ps, p.sourceId.length = 10
  data : ∀ p ∈ ps, p.data.length = 6143

/-! ### Pieces of a fixed width -/

theorem length_flatMap_const {α β : Type*} {f : α → List β} {k : ℕ} {xs : List α}
    (h : ∀ x ∈ xs, (f x).length = k) : (xs.flatMap f).length = k * xs.length := by
  induction xs with
  | nil => rfl
  | cons x xs ih =>
    have hhead := h x List.mem_cons_self
    have htail := ih fun y hy => h y (List.mem_cons_of_mem _ hy)
    rw [List.flatMap_cons, List.length_append, List.length_cons, hhead, htail, Nat.mul_succ,
      Nat.add_comm]

theorem map_of_flatMap_eq {α β : Type*} {f : α → List β} {k : ℕ} {xs ys : List α}
    (hx : ∀ x ∈ xs, (f x).length = k) (hy : ∀ y ∈ ys, (f y).length = k)
    (hlen : xs.length = ys.length) (h : xs.flatMap f = ys.flatMap f) : xs.map f = ys.map f := by
  induction xs generalizing ys with
  | nil =>
    cases ys with
    | nil => rfl
    | cons y ys => cases hlen
  | cons x xs ih =>
    cases ys with
    | nil => cases hlen
    | cons y ys =>
      have hwidth : (f x).length = (f y).length :=
        (hx x List.mem_cons_self).trans (hy y List.mem_cons_self).symm
      obtain ⟨hhead, htail⟩ := List.append_inj h hwidth
      have hrest := ih (fun z hz => hx z (List.mem_cons_of_mem _ hz))
        (fun z hz => hy z (List.mem_cons_of_mem _ hz)) (Nat.succ.inj hlen) htail
      rw [List.map_cons, List.map_cons, hhead, hrest]

theorem map_pair_eq {α β γ : Type*} {f : α → β} {g : α → γ} {xs ys : List α}
    (hf : xs.map f = ys.map f) (hg : xs.map g = ys.map g) :
    xs.map (fun x => (f x, g x)) = ys.map fun y => (f y, g y) := by
  rw [← List.zip_map', ← List.zip_map', hf, hg]

/-! ### The fields of a message -/

theorem frameText_length {v : ℤ} (h0 : 0 ≤ v) (h : v ≤ 255) : (frameText v).length = 2 := by
  obtain ⟨k, rfl⟩ := Int.eq_ofNat_of_zero_le h0
  rw [frameText_byte k (by omega)]
  rfl

theorem concatenated_length {v : ℤ} {ps : List FpgaPacket} (h : OneFrame v ps) :
    (concatenated v ps).length = 9 + 6153 * ps.length := by
  rw [concatenated, wireText_length, length_flatMap_const h.ids, length_flatMap_const h.data,
    frameText_length h.nonneg h.le]
  omega

theorem wireText_inj {ids ids' number number' data data' : Bytes} (hids : ids.length = ids'.length)
    (hnumber : number.length = number'.length)
    (h : wireText ids number data = wireText ids' number' data') :
    ids = ids' ∧ number = number' ∧ data = data' := by
  unfold wireText at h
  obtain ⟨hfront, hdata⟩ := List.append_inj h (by simp [hids, hnumber])
  obtain ⟨hopen, hnum⟩ := List.append_inj hfront (by simp [hids])
  obtain ⟨hbracket, -⟩ := List.append_inj hopen (by simp [hids])
  exact ⟨List.append_cancel_left hbracket, hnum, hdata⟩

theorem frameText_inj {v w : ℤ} (hv0 : 0 ≤ v) (hv : v ≤ 255) (hw0 : 0 ≤ w) (hw : w ≤ 255)
    (h : frameText v = frameText w) : v = w := by
  have hread := congrArg stoi h
  rw [stoi_frameText hv0 hv, stoi_frameText hw0 hw] at hread
  exact Except.ok.inj hread

/- The fields of packets with one frame number are all there is to them. -/
theorem OneFrame.rebuild {v : ℤ} {ps : List FpgaPacket} (h : OneFrame v ps) :
    (ps.map fun p => (p.sourceId, p.data)).map (fun x => FpgaPacket.mk x.1 v x.2) = ps := by
  rw [List.map_map]
  have hfields : ∀ p ∈ ps, (fun p : FpgaPacket => FpgaPacket.mk p.sourceId v p.data) p = id p := by
    intro p hp
    rw [← h.number p hp]
    rfl
  exact (List.map_congr_left hfields).trans (List.map_id ps)

/-- A message tells its frame number, its packets and their order. -/
theorem concatenated_inj {v w : ℤ} {ps qs : List FpgaPacket} (hp : OneFrame v ps)
    (hq : OneFrame w qs) (h : concatenated v ps = concatenated w qs) :
    v = w ∧ ps = qs := by
  have hlen : ps.length = qs.length := by
    have hlength := congrArg List.length h
    rw [concatenated_length hp, concatenated_length hq] at hlength
    omega
  have hwidth : (frameText v).length = (frameText w).length := by
    rw [frameText_length hp.nonneg hp.le, frameText_length hq.nonneg hq.le]
  have hwidth' : (ps.flatMap FpgaPacket.sourceId).length =
      (qs.flatMap FpgaPacket.sourceId).length := by
    rw [length_flatMap_const hp.ids, length_flatMap_const hq.ids, hlen]
  obtain ⟨hids, hnumber, hdata⟩ := wireText_inj hwidth' hwidth h
  have hvw : v = w := frameText_inj hp.nonneg hp.le hq.nonneg hq.le hnumber
  have hpairs := map_pair_eq (map_of_flatMap_eq hp.ids hq.ids hlen hids)
    (map_of_flatMap_eq hp.data hq.data hlen hdata)
  refine ⟨hvw, ?_⟩
  rw [← hp.rebuild, ← hq.rebuild, hpairs, hvw]

/-- The decoder of the receivers, given the whole message of a single packet,
returns that packet. -/
theorem ofRaw_concatenated {v : ℤ} {p : FpgaPacket} (h : OneFrame v [p]) :
    FpgaPacket.ofRaw (concatenated v [p]) (concatenated v [p]).length = .ok p := by
  have hp : p ∈ [p] := List.mem_singleton.mpr rfl
  have hlen := concatenated_length h
  rw [List.length_singleton, Nat.mul_one] at hlen
  obtain ⟨a, b, htext⟩ := List.length_eq_two.mp (frameText_length h.nonneg h.le)
  have hmessage : concatenated v [p] = wireText p.sourceId [a, b] p.data := by
    rw [concatenated, htext, List.flatMap_singleton, List.flatMap_singleton]
  obtain ⟨hid, hnumber, hdata⟩ := slice_wireText p.sourceId p.data a b (h.ids p hp) 6162
  rw [← hmessage] at hid hnumber hdata
  have hread : stoi (slice (concatenated v [p]) 17 19) = .ok v := by
    rw [hnumber, ← htext]
    exact stoi_frameText h.nonneg h.le
  have hwhole : p.data.take (6162 - 19) = p.data :=
    List.take_of_length_le (h.data p hp).le
  rw [ofRaw_ok hread, hlen, hid, hdata, hwhole, ← h.number p hp]

/-- Equal messages come from the same packets in the same order, and a message
of one packet is decoded to it. -/
theorem message_decodable {v w : ℤ} {ps qs : List FpgaPacket} (hp : OneFrame v ps)
    (hq : OneFrame w qs) :
    (concatenated v ps = concatenated w qs → ps.length = qs.length ∧ v = w ∧
      ps.map (fun p => (p.sourceId, p.data)) = qs.map fun q => (q.sourceId, q.data)) ∧
    ∀ p, ps = [p] → FpgaPacket.ofRaw (concatenated v ps) (concatenated v ps).length = .ok p := by
  constructor
  · intro h
    obtain ⟨hvw, hsame⟩ := concatenated_inj hp hq h
    rw [hsame]
    exact ⟨rfl, hvw, rfl⟩
  · intro p hone
    subst hone
    exact ofRaw_concatenated hp

theorem oneFrame_linkPacket (i : Fin 2) : OneFrame 7 [linkPacket i 7] where
  nonneg := by decide
  le := by decide
  number := by
    intro p hp
    rw [List.mem_singleton.mp hp]
    rfl
  ids := by
    intro p hp
    rw [List.mem_singleton.mp hp]
    exact linkId_length i
  data := by
    intro p hp
    rw [List.mem_singleton.mp hp]
    exact List.length_replicate

/- The same data from the two links of `main`. -/
theorem message_decodable_links :
    concatenated 7 [linkPacket 0 7] ≠ concatenated 7 [linkPacket 1 7] ∧
    FpgaPacket.ofRaw (concatenated 7 [linkPacket 0 7]) (concatenated 7 [linkPacket 0 7]).length =
      .ok (linkPacket 0 7) := by
  have h := message_decodable (oneFrame_linkPacket 0) (oneFrame_linkPacket 1)
  constructor
  · intro hsame
    have hpairs := (h.1 hsame).2.2
    have hid : linkId 0 = linkId 1 := congrArg Prod.fst (List.head_eq_of_cons_eq hpairs)
    exact absurd hid (by decide)
  · exact h.2 _ rfl

/-! ### The messages of a run -/

/- What the receivers push. -/
structure WellFormed (p : FpgaPacket) : Prop where
  nonneg : 0 ≤ p.frameNumber
  le : p.frameNumber ≤ 255
  id : p.sourceId.length = 10
  data : p.data.length = 6143

end OSwitch.Concatinator
