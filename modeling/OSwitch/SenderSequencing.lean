import OSwitch.FrameRoundTrip

/-!
# The numbers on the wire when some sends fail

The counter moves on only when `sendto` accepted the frame, and the stream is
emptied in either case. So the accepted frames are numbered 0, 1, 2, … modulo
255, and a frame that was not accepted is built again byte for byte.
-/

namespace OSwitch.SenderSocket
open Wire StdText Trace ReceiverSocket

variable {senderId msg : Bytes}

/-- The buffers that `sendto` accepted. -/
def accepted (tr : List (Bytes × ℤ)) : List Bytes := (tr.filter fun e => 0 ≤ e.2).map Prod.fst

/-- The `k`-th frame of a sender. -/
def frameOf (senderId msg : Bytes) (k : ℕ) : Bytes :=
  wireText senderId [digitChar (k % 255 / 16), digitChar (k % 255 % 16)] msg

theorem accepted_snoc (tr : List (Bytes × ℤ)) (e : Bytes × ℤ) :
    accepted (tr ++ [e]) = if 0 ≤ e.2 then accepted tr ++ [e.1] else accepted tr := by
  unfold accepted
  rw [List.filter_append, List.map_append]
  split
  next h => simp [h]
  next h => simp [h]

/-! ### What an iteration sends and counts -/

/- The counter is the number of accepted frames, and the stream is empty. -/
structure Counting (tr : List (Bytes × ℤ)) (s : State) : Prop where
  counter : s.frameNumber = (((accepted tr).length % 255 : ℕ) : ℤ)
  empty : s.frameNumberStream.contents = []

theorem Counting.sendBuf_eq {tr : List (Bytes × ℤ)} {s : State} (h : Counting tr s) :
    (sendBuf senderId msg s).1 = frameOf senderId msg (accepted tr).length := by
  have hcounter := h.counter
  have hready : Ready s := ⟨by omega, by omega, h.empty⟩
  rw [sendBuf_ready hready, hcounter]
  rfl

theorem Counting.iteration {tr : List (Bytes × ℤ)} {s : State} (h : Counting tr s) (buf : Bytes)
    (numbytes : ℤ) : Counting (tr ++ [(buf, numbytes)]) (iteration senderId msg s numbytes) := by
  have hcounter := h.counter
  unfold SenderSocket.iteration
  by_cases hfailed : numbytes < 0
  · have hsame : accepted (tr ++ [(buf, numbytes)]) = accepted tr := by
      rw [accepted_snoc]
      exact if_neg (by omega)
    rw [if_pos hfailed]
    refine ⟨?_, rfl⟩
    rw [hsame]
    exact hcounter
  · have hone : (accepted (tr ++ [(buf, numbytes)])).length = (accepted tr).length + 1 := by
      rw [accepted_snoc, if_pos (by omega), List.length_append]
      rfl
    rw [if_neg hfailed]
    refine ⟨?_, rfl⟩
    rw [hone]
    dsimp only
    split <;> omega

/-! ### Runs -/

/-- What a run has sent: every attempt carried the number of the next frame to be
accepted, so the accepted ones are numbered one after the other. -/
structure Numbered (senderId msg : Bytes) (tr : List (Bytes × ℤ)) : Prop where
  attempts : ∀ tr₁ e tr₂, tr = tr₁ ++ e :: tr₂ →
    e.1 = frameOf senderId msg (accepted tr₁).length
  accepted : accepted tr = (List.range (accepted tr).length).map (frameOf senderId msg)

theorem run_numbered {tr : List (Bytes × ℤ)} {s : State}
    (h : (startTransmitting senderId msg).Run tr s) :
    Counting tr s ∧ Numbered senderId msg tr := by
  induction h with
  | init hi =>
    cases hi
    refine ⟨⟨rfl, rfl⟩, ?_, rfl⟩
    intro tr₁ e tr₂ h
    simp at h
  | @snoc tr s e s' _ he ih =>
    obtain ⟨hcounting, hattempts, haccepted⟩ := ih
    obtain ⟨hbuf, rfl⟩ := he
    rw [hcounting.sendBuf_eq] at hbuf
    refine ⟨hcounting.iteration e.1 e.2, ?_, ?_⟩
    · intro tr₁ e' tr₂ hsplit
      rcases split_snoc hsplit with ⟨rfl, rfl, -⟩ | ⟨tr', -, htr⟩
      · exact hbuf
      · exact hattempts tr₁ e' tr' htr
    · rw [accepted_snoc]
      split
      · rw [List.length_append, List.length_singleton, List.range_succ, List.map_append,
          ← haccepted, List.map_singleton, hbuf]
      · exact haccepted

/-- Whatever `sendto` answers, the loop goes on. -/
theorem exists_run (senderId msg : Bytes) (answers : List ℤ) :
    ∃ tr s, (startTransmitting senderId msg).Run tr s ∧ tr.map Prod.snd = answers := by
  induction answers using List.reverseRecOn with
  | nil => exact ⟨[], start, .init rfl, rfl⟩
  | append_singleton answers numbytes ih =>
    obtain ⟨tr, s, h, htr⟩ := ih
    have hstep : (startTransmitting senderId msg).step s ((sendBuf senderId msg s).1, numbytes)
        (iteration senderId msg s numbytes) := ⟨rfl, rfl⟩
    refine ⟨_, _, h.snoc hstep, ?_⟩
    rw [List.map_append, htr]
    rfl

/-! ### The frames -/

theorem frameOf_length (hid : senderId.length = 10) (hmsg : msg = msg1 ∨ msg = msg2) (k : ℕ) :
    (frameOf senderId msg k).length = currentFpgaPacketSize := by
  have hlen : msg.length = 6144 := by
    rcases hmsg with rfl | rfl
    · exact List.length_replicate
    · exact List.length_replicate
  rw [frameOf, wireText_length, hid, hlen]
  rfl

theorem slice_frameOf (hid : senderId.length = 10) (k : ℕ) :
    slice (frameOf senderId msg k) 17 19 =
      [digitChar (k % 255 / 16), digitChar (k % 255 % 16)] :=
  (slice_wireText senderId msg _ _ hid 19).2.1

theorem digits_frameOf (k : ℕ) : hexValue (digitChar (k % 255 / 16)) = some (k % 255 / 16) ∧
    hexValue (digitChar (k % 255 % 16)) = some (k % 255 % 16) :=
  ⟨hexValue_digitChar _ (by omega), hexValue_digitChar _ (by omega)⟩

theorem stoi_frameOf (hid : senderId.length = 10) (k : ℕ) :
    stoi (slice (frameOf senderId msg k) 17 19) = .ok ((k % 255 : ℕ) : ℤ) := by
  rw [slice_frameOf hid, stoi_byte (by omega)]

/-- The accepted frames carry 0, 1, 2, … modulo 255, a frame that was not accepted
is sent again as it was, and every frame has the form that the receiver expects. -/
theorem sender_sequencing (hid : senderId.length = 10) (hmsg : msg = msg1 ∨ msg = msg2)
    {tr : List (Bytes × ℤ)} {s : State} (h : (startTransmitting senderId msg).Run tr s) :
    (∀ j buf, (accepted tr)[j]? = some buf → buf = frameOf senderId msg j ∧
      stoi (slice buf 17 19) = .ok ((j % 255 : ℕ) : ℤ)) ∧
    (∀ tr₁ buf numbytes buf' numbytes' tr₂,
      tr = tr₁ ++ (buf, numbytes) :: (buf', numbytes') :: tr₂ → numbytes < 0 → buf' = buf) ∧
    ∀ e ∈ tr, e.1.length = 6163 ∧ (∀ t, t ≠ packetOutgoing → Examined t e.1) ∧
      ∃ x y, slice e.1 17 19 = [x, y] ∧ (hexValue x).isSome ∧ (hexValue y).isSome := by
  obtain ⟨-, hattempts, haccepted⟩ := run_numbered h
  refine ⟨?_, ?_, ?_⟩
  · intro j buf hj
    have hlt : j < (accepted tr).length := (List.getElem?_eq_some_iff.mp hj).1
    rw [haccepted, List.getElem?_map, List.getElem?_range hlt] at hj
    have hbuf : frameOf senderId msg j = buf := Option.some_inj.mp hj
    rw [← hbuf]
    exact ⟨rfl, stoi_frameOf hid j⟩
  · intro tr₁ buf numbytes buf' numbytes' tr₂ hsplit hfailed
    have hfirst : buf = frameOf senderId msg (accepted tr₁).length := hattempts tr₁ _ _ hsplit
    have hsame : accepted (tr₁ ++ [(buf, numbytes)]) = accepted tr₁ := by
      rw [accepted_snoc]
      exact if_neg (by omega)
    have hsecond : buf' = frameOf senderId msg (accepted (tr₁ ++ [(buf, numbytes)])).length := by
      refine hattempts (tr₁ ++ [(buf, numbytes)]) (buf', numbytes') tr₂ ?_
      rw [hsplit, List.append_assoc]
      rfl
    rw [hsecond, hsame, hfirst]
  · intro e he
    obtain ⟨tr₁, tr₂, hsplit⟩ := List.append_of_mem he
    have hbuf := hattempts tr₁ e tr₂ hsplit
    have hlen := frameOf_length hid hmsg (accepted tr₁).length
    rw [hbuf]
    obtain ⟨hhi, hlo⟩ := digits_frameOf (accepted tr₁).length
    refine ⟨hlen, fun t ht => ⟨ht, hlen⟩, _, _, slice_frameOf hid _, ?_, ?_⟩
    · rw [hhi]
      rfl
    · rw [hlo]
      rfl

/- The second send fails, the third one repeats it and succeeds. -/
theorem sender_sequencing_lan1 :
    ∃ b₀ b₁ s, (startTransmitting (text "lan1&%argw") msg1).Run
        [(b₀, 6163), (b₁, -1), (b₁, 6163)] s ∧
      stoi (slice b₀ 17 19) = .ok 0 ∧ stoi (slice b₁ 17 19) = .ok 1 := by
  obtain ⟨tr, s, h, htr⟩ := exists_run (text "lan1&%argw") msg1 [6163, -1, 6163]
  match tr with
  | [(b₀, _), (b₁, _), (b₂, _)] =>
    cases htr
    obtain ⟨hnumbers, hagain, -⟩ := sender_sequencing rfl (.inl rfl) h
    have hsame : b₂ = b₁ := hagain [(b₀, 6163)] b₁ (-1) b₂ 6163 [] rfl (by decide)
    rw [hsame] at h hnumbers
    exact ⟨b₀, b₁, s, h, (hnumbers 0 b₀ rfl).2, (hnumbers 1 b₁ rfl).2⟩

end OSwitch.SenderSocket
