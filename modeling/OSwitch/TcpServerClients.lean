import Mathlib.Data.List.TakeWhile
import OSwitch.TcpServerLifetime

/-!
# What a client's thread publishes

What one client's thread publishes is what it has received, in that order, one
event for each return of `recv`, the bytes as a C string. The end of the stream
comes last, and no client is deleted before it was published.
-/

namespace OSwitch.TcpServer
open Wire StdText Trace Threads

variable {U : Type*} {S : Setting U} {x y : Shared U}

/-! ### Received and published -/

def receptionOf (c : ℕ) : Tid U × Event → Option (Recv × ClientEvent × Bytes)
  | (.receiver d, .received r e msg) => if d = c then some (r, e, msg) else none
  | _ => none

def publicationOf (c : ℕ) : Tid U × Event → Option (ClientEvent × Bytes)
  | (.receiver d, .published _ e msg) => if d = c then some (e, msg) else none
  | _ => none

/- What `recv` has returned to client `c`'s thread, with what is to be published
of it, and what was published. -/
def receptions (c : ℕ) (tr : List (Tid U × Event)) : List (Recv × ClientEvent × Bytes) :=
  tr.filterMap (receptionOf c)

def returnsOf (c : ℕ) (tr : List (Tid U × Event)) : List Recv := (receptions c tr).map Prod.fst

def publications (c : ℕ) (tr : List (Tid U × Event)) : List (ClientEvent × Bytes) :=
  tr.filterMap (publicationOf c)

def ReceiverPc.pending : ReceiverPc → List (ClientEvent × Bytes)
  | .publish e msg => [(e, msg)]
  | _ => []

/- The thread may still call `recv`. -/
def ReceiverPc.looping : ReceiverPc → Bool
  | .check | .wait | .recv => true
  | .publish e _ | .dispatch e _ _ | .handler e _ _ _ => e = .incomingMsg
  | .ret | .done => false

def closedText : Bytes := text "Client closed connection"

/- The thread publishes `p` after `recv` has returned `r`. -/
def Publishes (r : Recv) (p : ClientEvent × Bytes) : Prop :=
  r.Valid ∧ ∃ errno junk, publishedOf r errno junk = p

/- What `p` says of `r`: the received bytes up to their first zero. Where they have
none, the memory behind them is read on up to one. -/
def Tells : Recv → ClientEvent × Bytes → Prop
  | .eof, p => p = (.disconnected, closedText)
  | .error, p => p.1 = .incomingMsg ∧ 0 ∉ p.2
  | .data bytes, p => p.1 = .incomingMsg ∧ 0 ∉ p.2 ∧
      (0 ∈ bytes → p.2 = cString bytes) ∧ (0 ∉ bytes → bytes <+: p.2)

/- The stream ends at most once, after all that it brings. -/
def Shape (rs : List Recv) : Prop := ∃ rs' fin, rs = rs' ++ fin ∧ .eof ∉ rs' ∧
  (fin = [] ∨ fin = [.eof])

theorem receptions_snoc (c : ℕ) (tr : List (Tid U × Event)) (e : Tid U × Event) :
    receptions c (tr ++ [e]) = receptions c tr ++ (receptionOf c e).toList := by
  rw [receptions, List.filterMap_append]
  cases h : receptionOf c e <;> simp [receptions, h]

theorem publications_snoc (c : ℕ) (tr : List (Tid U × Event)) (e : Tid U × Event) :
    publications c (tr ++ [e]) = publications c tr ++ (publicationOf c e).toList := by
  rw [publications, List.filterMap_append]
  cases h : publicationOf c e <;> simp [publications, h]

theorem sizeT_length {bytes : Bytes} (h : bytes.length ≤ maxPacketSize) :
    sizeT (bytes.length : ℤ) = bytes.length := by
  unfold maxPacketSize at h
  unfold sizeT
  omega

theorem not_mem_cString (memory : Bytes) : 0 ∉ cString memory := by
  intro h
  have hne := List.mem_takeWhile_imp (show 0 ∈ memory.takeWhile (· ≠ 0) from h)
  simp at hne

theorem cString_append_of_mem {bytes : Bytes} (junk : Bytes) (h : 0 ∈ bytes) :
    cString (bytes ++ junk) = cString bytes := by
  induction bytes with
  | nil => cases h
  | cons b bytes ih =>
    by_cases hb : b = 0
    · simp [cString, hb]
    · have hrest := ih ((List.mem_cons.mp h).resolve_left (Ne.symm hb))
      simpa [cString, hb] using hrest

theorem prefix_cString {bytes : Bytes} (junk : Bytes) (h : 0 ∉ bytes) :
    bytes <+: cString (bytes ++ junk) := by
  have hall : ∀ b ∈ bytes, decide (b ≠ 0) = true := by
    intro b hb
    exact decide_eq_true (ne_of_mem_of_not_mem hb h)
  rw [cString, List.takeWhile_append_of_pos hall]
  exact List.prefix_append ..

/- A failing `recv` counts as a huge number of bytes. -/
theorem Publishes.tells {r : Recv} {p : ClientEvent × Bytes} (h : Publishes r p) : Tells r p := by
  obtain ⟨hvalid, errno, junk, rfl⟩ := h
  cases r with
  | eof => exact rfl
  | error =>
    have hsize : ¬sizeT Recv.error.ret < 1 := by decide
    rw [publishedOf, if_neg hsize]
    exact ⟨rfl, not_mem_cString _⟩
  | data bytes =>
    have hsize : ¬sizeT (Recv.data bytes).ret < 1 := by
      change ¬sizeT (bytes.length : ℤ) < 1
      rw [sizeT_length hvalid.2]
      exact Nat.not_lt.mpr hvalid.1
    rw [publishedOf, if_neg hsize]
    exact ⟨rfl, not_mem_cString _, cString_append_of_mem junk, prefix_cString junk⟩

example : Publishes (.data [65, 0, 66]) (.incomingMsg, [65]) :=
  ⟨⟨by decide, by decide⟩, [], [], by decide⟩

theorem Tells.eof_of_disconnected {r : Recv} {p : ClientEvent × Bytes} (h : Tells r p)
    (hp : p.1 = .disconnected) : r = .eof := by
  cases r with
  | eof => rfl
  | error | data =>
    rw [h.1] at hp
    cases hp

/-! ### The thread of the client -/

/- What client `c`'s thread has received and published, and where it is. -/
structure Stream (c : ℕ) (tr : List (Tid U × Event)) (x : Shared U) (l : ReceiverPc) : Prop where
  published : publications c tr ++ ReceiverPc.pending l = (receptions c tr).map Prod.snd
  publishes : ∀ p ∈ receptions c tr, Publishes p.1 p.2
  goesOn : ReceiverPc.looping l = true → .eof ∉ returnsOf c tr
  shape : Shape (returnsOf c tr)
  own : ∀ clientIP e msg, (Tid.receiver c, Event.published clientIP e msg) ∈ tr →
    c < x.nextClient ∧ clientIP = (x.client c).ip

theorem shape_of_not_mem {rs : List Recv} (h : .eof ∉ rs) : Shape rs :=
  ⟨rs, [], (List.append_nil _).symm, h, .inl rfl⟩

theorem Shape.getLast? {rs : List Recv} (h : Shape rs) (heof : .eof ∈ rs) :
    rs.getLast? = some .eof := by
  obtain ⟨rs', fin, rfl, hnot, hfin⟩ := h
  rcases hfin with rfl | rfl
  · rw [List.append_nil] at heof
    exact absurd heof hnot
  · exact List.getLast?_concat ..

/- A step that neither receives nor publishes. -/
theorem Stream.silent {c : ℕ} {tr : List (Tid U × Event)} {e : Tid U × Event} {l m : ReceiverPc}
    (h : Stream c tr x l) (hreceived : receptionOf c e = none)
    (hpublished : publicationOf c e = none)
    (hpending : ReceiverPc.pending m = ReceiverPc.pending l)
    (hlooping : ReceiverPc.looping m = true → ReceiverPc.looping l = true)
    (hown : ∀ clientIP ev msg, (Tid.receiver c, Event.published clientIP ev msg) ∈ tr ++ [e] →
      c < y.nextClient ∧ clientIP = (y.client c).ip) : Stream c (tr ++ [e]) y m := by
  have hreceptions : receptions c (tr ++ [e]) = receptions c tr := by
    rw [receptions_snoc, hreceived, Option.toList_none, List.append_nil]
  have hpublications : publications c (tr ++ [e]) = publications c tr := by
    rw [publications_snoc, hpublished, Option.toList_none, List.append_nil]
  refine ⟨?_, ?_, ?_, ?_, hown⟩
  · rw [hpublications, hreceptions, hpending]
    exact h.published
  · rw [hreceptions]
    exact h.publishes
  · rw [returnsOf, hreceptions]
    exact fun hm => h.goesOn (hlooping hm)
  · rw [returnsOf, hreceptions]
    exact h.shape

/-! ### The thread of a client receives and publishes -/

theorem receptions_received (c : ℕ) (tr : List (Tid U × Event)) (r : Recv) (ev : ClientEvent)
    (msg : Bytes) : receptions c (tr ++ [(.receiver c, .received r ev msg)]) =
      receptions c tr ++ [(r, ev, msg)] := by
  rw [receptions_snoc, receptionOf, if_pos rfl]
  rfl

theorem returnsOf_received (c : ℕ) (tr : List (Tid U × Event)) (r : Recv) (ev : ClientEvent)
    (msg : Bytes) : returnsOf c (tr ++ [(.receiver c, .received r ev msg)]) =
      returnsOf c tr ++ [r] := by
  rw [returnsOf, receptions_received, List.map_append]
  rfl

theorem publications_received (c : ℕ) (tr : List (Tid U × Event)) (r : Recv) (ev : ClientEvent)
    (msg : Bytes) : publications c (tr ++ [(.receiver c, .received r ev msg)]) =
      publications c tr := by
  rw [publications_snoc]
  exact List.append_nil _

theorem receptions_published (c : ℕ) (tr : List (Tid U × Event)) (clientIP : Bytes)
    (ev : ClientEvent) (msg : Bytes) :
    receptions c (tr ++ [(.receiver c, .published clientIP ev msg)]) = receptions c tr := by
  rw [receptions_snoc]
  exact List.append_nil _

theorem publications_published (c : ℕ) (tr : List (Tid U × Event)) (clientIP : Bytes)
    (ev : ClientEvent) (msg : Bytes) :
    publications c (tr ++ [(.receiver c, .published clientIP ev msg)]) =
      publications c tr ++ [(ev, msg)] := by
  rw [publications_snoc, publicationOf, if_pos rfl]
  rfl

theorem stream_step {c : ℕ} {tr : List (Tid U × Event)} {e : Event} {l m : ReceiverPc}
    (h : Stream c tr x l) (he : ReceiverStep c x l e y m)
    (hown : ∀ clientIP ev msg,
      (Tid.receiver c, Event.published clientIP ev msg) ∈ tr ++ [(.receiver c, e)] →
      c < y.nextClient ∧ clientIP = (y.client c).ip) :
    Stream c (tr ++ [(.receiver c, e)]) y m := by
  have hnothing : publications c tr ++ ReceiverPc.pending .recv = publications c tr :=
    List.append_nil _
  have hreceived : ∀ {r : Recv} {ev : ClientEvent} {msg : Bytes}, Publishes r (ev, msg) →
      ∀ p ∈ receptions c (tr ++ [(.receiver c, .received r ev msg)]), Publishes p.1 p.2 := by
    intro r ev msg hpublishes p hp
    rw [receptions_received] at hp
    rcases List.mem_append.mp hp with hp | hp
    · exact h.publishes p hp
    · rw [List.mem_singleton.mp hp]
      exact hpublishes
  cases he with
  | @closed r errno junk msg hvalid hpub =>
    have hpublishes : Publishes r (.disconnected, msg) := ⟨hvalid, errno, junk, hpub⟩
    have heof : r = .eof := hpublishes.tells.eof_of_disconnected rfl
    refine ⟨?_, hreceived hpublishes, fun hm => (by cases hm), ?_, hown⟩
    · rw [publications_received, receptions_received, List.map_append, ← h.published, hnothing]
      rfl
    · rw [returnsOf_received, heof]
      exact ⟨_, _, rfl, h.goesOn rfl, .inr rfl⟩
  | @received r errno junk msg hvalid hpub =>
    have hpublishes : Publishes r (.incomingMsg, msg) := ⟨hvalid, errno, junk, hpub⟩
    have hnot : .eof ∉ returnsOf c (tr ++ [(.receiver c, .received r .incomingMsg msg)]) := by
      rw [returnsOf_received]
      intro hmem
      rcases List.mem_append.mp hmem with hmem | hmem
      · exact h.goesOn rfl hmem
      · rw [← List.mem_singleton.mp hmem] at hpublishes
        cases hpublishes.tells
    refine ⟨?_, hreceived hpublishes, fun _ => hnot, shape_of_not_mem hnot, hown⟩
    rw [publications_received, receptions_received, List.map_append, ← h.published, hnothing]
    rfl
  | @lock e msg _ =>
    refine ⟨?_, ?_, ?_, ?_, hown⟩
    · rw [publications_published, receptions_published, ← h.published]
      exact List.append_nil _
    · rw [receptions_published]
      exact h.publishes
    · rw [returnsOf, receptions_published]
      exact h.goesOn
    · rw [returnsOf, receptions_published]
      exact h.shape
  | stop | finish | ret => exact h.silent rfl rfl rfl (fun hm => by cases hm) hown
  | check | waitFailed | timeout | ready | again =>
    exact h.silent rfl rfl rfl (fun _ => rfl) hown
  | skip | notify | enter | leave => exact h.silent rfl rfl rfl (fun hm => hm) hown

theorem published_ip {c : ℕ} {l m : ReceiverPc} {clientIP msg : Bytes} {e : ClientEvent}
    (he : ReceiverStep c x l (.published clientIP e msg) y m) : clientIP = (x.client c).ip := by
  cases he with
  | lock => rfl

/-! ### Who disconnects a client -/

/- The server has seen the end of client `c`'s stream. -/
def Hung (c : ℕ) (tr : List (Tid U × Event)) : Prop := .eof ∈ returnsOf c tr

theorem Hung.mono {c : ℕ} {tr : List (Tid U × Event)} (h : Hung c tr) (e : Tid U × Event) :
    Hung c (tr ++ [e]) := by
  rw [Hung, returnsOf, receptions_snoc, List.map_append]
  exact List.mem_append_left _ h

/- The clients in the list that `close` has disconnected. -/
def UserPc.Disconnects : UserPc → ℕ → Prop
  | .closing rest, d => d ∉ rest
  | .join _ rest, d => d ∉ rest
  | .closeFd _ rest, d => d ∉ rest
  | _, _ => False

/- A client that is disconnected, and that one disconnects. -/
theorem disconnect_off {c d : ℕ} (h : ((x.disconnect c).client d).isConnected = false) :
    d = c ∨ (x.client d).isConnected = false := by
  by_cases hd : d = c
  · exact .inl hd
  · rw [Shared.disconnect, setClient_of_ne hd] at h
    exact .inr h

theorem endReceiver_isConnected (x : Shared U) (c d : ℕ) :
    ((x.endReceiver c).client d).isConnected = (x.client d).isConnected :=
  setClient_field (k := { x.client c with running := false }) Client.isConnected rfl d

theorem dropThread_isConnected (x : Shared U) (c d : ℕ) :
    ((x.dropThread c).client d).isConnected = (x.client d).isConnected :=
  setClient_field (k := { x.client c with receiveThread := false }) Client.isConnected rfl d

theorem removeClient_isConnected (x : Shared U) (c d : ℕ) :
    ((x.removeClient c).client d).isConnected = (x.client d).isConnected :=
  setClient_field (k := { x.client c with alive := false }) Client.isConnected rfl d

theorem receiver_disconnects {c d : ℕ} {l m : ReceiverPc} {e : Event}
    (he : ReceiverStep d x l e y m) (hc : (y.client c).isConnected = false) :
    (x.client c).isConnected = false ∨
      (c = d ∧ ∃ r msg, e = .received r .disconnected msg ∧ r = .eof) := by
  cases he with
  | @closed r errno junk msg hvalid hpub =>
    have hpublishes : Publishes r (.disconnected, msg) := ⟨hvalid, errno, junk, hpub⟩
    rcases disconnect_off hc with hcd | hoff
    · exact .inr ⟨hcd, r, msg, rfl, hpublishes.tells.eof_of_disconnected rfl⟩
    · exact .inl hoff
  | ret => exact .inl ((endReceiver_isConnected x d c).symm.trans hc)
  | _ => exact .inl hc

theorem remover_disconnects {c j : ℕ} {l m : RemoverPc} {e : Event}
    (he : RemoverStep S j x l e y m) (hc : (y.client c).isConnected = false) :
    (x.client c).isConnected = false := by
  cases he with
  | found hoff =>
    rcases disconnect_off hc with rfl | hc
    · exact hoff
    · exact hc
  | join => exact (dropThread_isConnected x _ c).symm.trans hc
  | delete => exact (removeClient_isConnected x _ c).symm.trans hc
  | _ => exact hc

theorem deleted_by {c j : ℕ} {l m : RemoverPc} {e : Event} (h : Holds S (.remover j) l x)
    (he : RemoverStep S j x l e y m) (hc : c ∈ (deletedOf e).toList) :
    RemoverPc.locked l = true ∧ c ∈ x.clients ∧ (x.client c).isConnected = false := by
  cases he with
  | delete =>
    rw [List.mem_singleton.mp hc]
    exact ⟨rfl, h.knows.1, h.knows.2.2.2⟩
  | _ => cases hc

theorem user_pushes {u : U} {c : ℕ} {l m : UserPc} {e : Event} (he : UserStep S u x l e y m)
    (hm : UserPc.pushing m = some c) : (y.client c).isConnected = true := by
  cases he with
  | accept =>
    injection hm with hc
    rw [← hc, Shared.addClient]
    change ((x.setClient x.nextClient _).client x.nextClient).isConnected = true
    rw [setClient_self]
  | _ => cases hm

theorem UserHolds.pushed {u : U} {c : ℕ} {l : UserPc} (h : UserHolds S u x l)
    (hl : UserPc.pushing l = some c) : c < x.nextClient ∧ c ∉ x.clients := by
  cases l with
  | push d =>
    injection hl with hd
    rw [← hd]
    exact ⟨h.2.1, h.2.2.2.1⟩
  | _ => cases hl

theorem UserPc.Disconnects.locked {l : UserPc} {c : ℕ} (h : UserPc.Disconnects l c) :
    UserPc.locked l = true := by
  cases l with
  | closing | join | closeFd => rfl
  | _ => exact h.elim

/- `close` disconnects clients that are in the list. -/
theorem user_disconnects {u : U} {c : ℕ} {l m : UserPc} {e : Event} (h : Holds S (.user u) l x)
    (he : UserStep S u x l e y m) (hlt : c < x.nextClient) (hc : c ∉ x.clients)
    (hoff : (y.client c).isConnected = false) : (x.client c).isConnected = false := by
  have hknows : UserHolds S u x l := h.knows
  cases he with
  | @addRemover remove => cases remove <;> exact hoff
  | @accept timeout l fd ip _ _ _ _ =>
    have hsame : (x.addClient fd ip).client c = x.client c := setClient_of_ne (Nat.ne_of_lt hlt) _
    rw [hsame] at hoff
    exact hoff
  | @disconnect d rest =>
    rcases disconnect_off hoff with rfl | hoff
    · exact absurd (hknows.2.1.subset (List.mem_cons_self ..)) hc
    · exact hoff
  | @join d rest => exact (dropThread_isConnected x d c).symm.trans hoff
  | closeServer | closeServerFailed => cases hl : x.sockfd <;> rw [hl] at hoff <;> exact hoff
  | _ => exact hoff

/- A listed client that is disconnected: it was before, or `close` is at it, or it
was accepted like that. -/
theorem user_listed (hreliable : ¬S.closeFails) {u : U} {c : ℕ} {l m : UserPc} {e : Event}
    (hx : Inv S x) (h : Holds S (.user u) l x) (he : UserStep S u x l e y m) (hc : c ∈ y.clients)
    (hoff : (y.client c).isConnected = false) :
    (c ∈ x.clients ∧ (x.client c).isConnected = false ∧
        (UserPc.Disconnects l c → UserPc.Disconnects m c)) ∨
      (u = S.closer ∧ UserPc.Disconnects m c) ∨
      (u = S.acceptor ∧ l = .push c ∧ (x.client c).isConnected = false) := by
  have hknows : UserHolds S u x l := h.knows
  cases he with
  | @addRemover remove => cases remove <;> exact .inl ⟨hc, hoff, fun hd => hd.elim⟩
  | @accept timeout l fd ip _ _ _ _ =>
    have hsame : (x.addClient fd ip).client c = x.client c :=
      setClient_of_ne (Nat.ne_of_lt (hx.lt hc)) _
    rw [hsame] at hoff
    exact .inl ⟨hc, hoff, fun hd => hd.elim⟩
  | @push d _ =>
    rcases List.mem_append.mp hc with hc | hc
    · exact .inl ⟨hc, hoff, fun hd => hd.elim⟩
    · rw [List.mem_singleton.mp hc] at hoff ⊢
      exact .inr (.inr ⟨hknows.1, rfl, hoff⟩)
  | @disconnect d rest =>
    rcases disconnect_off hoff with rfl | hoff
    · have hnodup := hknows.2.1.sublist.nodup hx.nodup
      exact .inr (.inl ⟨hknows.1, (List.nodup_cons.mp hnodup).1⟩)
    · exact .inl ⟨hc, hoff, fun hd hrest => hd (List.mem_cons_of_mem _ hrest)⟩
  | @join d rest =>
    exact .inl ⟨hc, (dropThread_isConnected x d c).symm.trans hoff, fun hd => hd⟩
  | closed => exact .inl ⟨hc, hoff, fun hd => hd⟩
  | closeFailed hfailed => exact absurd (closeFails_of_failed hknows.2.2 hfailed) hreliable
  | clear => cases hc
  | closeServer | closeServerFailed =>
    cases hl : x.sockfd <;> rw [hl] at hc hoff <;> exact .inl ⟨hc, hoff, fun hd => hd.elim⟩
  | _ => exact .inl ⟨hc, hoff, fun hd => hd.elim⟩

/-! ### Over whole runs -/

variable [DecidableEq U]

theorem run_stream {tr : List (Tid U × Event)} {s : State U} (h : (system S).Run tr s) (c : ℕ) :
    Stream c tr s.shared (s.pc (.receiver c)) := by
  refine (safety S).invariant (I := fun tr s =>
    Stream c tr s.shared (s.pc (.receiver c))) ?_ ?_ h
  · intro s _ hpc
    rw [hpc]
    exact ⟨rfl, fun p hp => (by cases hp), fun _ => List.not_mem_nil,
      shape_of_not_mem List.not_mem_nil,
      fun _ _ _ hp => by cases hp⟩
  · intro tr s t e y m hok ih he hy hg
    have hold : ∀ clientIP ev msg, (Tid.receiver c, Event.published clientIP ev msg) ∈ tr →
        c < y.nextClient ∧ clientIP = (y.client c).ip := by
      intro clientIP ev msg hp
      obtain ⟨hlt, hip⟩ := ih.own clientIP ev msg hp
      exact ⟨Nat.lt_of_lt_of_le hlt hg.made, hip.trans (hg.later c hlt).ip.symm⟩
    rw [move_shared]
    by_cases ht : t = .receiver c
    · subst ht
      obtain ⟨hrun, hstep⟩ := he.2
      have hlt : c < s.shared.nextClient := hok.inv.made c (hok.inv.running c hrun).1
      rw [move_pc]
      refine stream_step ih hstep fun clientIP ev msg hp => ?_
      rcases List.mem_append.mp hp with hp | hp
      · exact hold clientIP ev msg hp
      · injection List.mem_singleton.mp hp with _ hev
        refine ⟨Nat.lt_of_lt_of_le hlt hg.made, ?_⟩
        rw [(hg.later c hlt).ip]
        rw [← hev] at hstep
        exact published_ip hstep
    · have hreceived : receptionOf c (t, e) = none := by
        cases t with
        | receiver d =>
          have hd : d ≠ c := fun hdc => ht (by rw [hdc])
          cases e with
          | received => exact if_neg hd
          | _ => rfl
        | _ => rfl
      have hpublished : publicationOf c (t, e) = none := by
        cases t with
        | receiver d =>
          have hd : d ≠ c := fun hdc => ht (by rw [hdc])
          cases e with
          | published => exact if_neg hd
          | _ => rfl
        | _ => rfl
      rw [move_pc_of_ne s (Ne.symm ht)]
      refine ih.silent hreceived hpublished rfl id fun clientIP ev msg hp => ?_
      rcases List.mem_append.mp hp with hp | hp
      · exact hold clientIP ev msg hp
      · injection List.mem_singleton.mp hp with htid _
        exact absurd htid.symm ht

/- Clients that are disconnected have hung up, but for those that `close` is at. -/
structure Announced (S : Setting U) (tr : List (Tid U × Event)) (s : State U) : Prop where
  listed : ∀ c ∈ s.shared.clients, (s.shared.client c).isConnected = false →
    Hung c tr ∨ UserPc.Disconnects (s.pc (.user S.closer)) c
  pushed : ∀ c, UserPc.pushing (s.pc (.user S.acceptor)) = some c →
    (s.shared.client c).isConnected = false → Hung c tr
  deleted : ∀ c ∈ deletions tr, Hung c tr

/- A step of a thread that is no user. -/
theorem announced_step {tr : List (Tid U × Event)} {s : State U} {t : Tid U} {e : Event}
    {m : Pc t} (ih : Announced S tr s) (ht : ∀ u, t ≠ .user u)
    (hg : Guar S t s.shared y)
    (hoff : ∀ c, (y.client c).isConnected = false →
      (s.shared.client c).isConnected = false ∨ Hung c (tr ++ [(t, e)]))
    (hdeleted : ∀ c ∈ (deletedOf e).toList, Hung c tr) :
    Announced S (tr ++ [(t, e)]) (s.move t y m) := by
  refine ⟨?_, ?_, ?_⟩
  · intro c hc hc'
    have hcs := (hg.accepts (ht _)).2 hc
    rw [move_pc_of_ne s (ht _).symm]
    rcases hoff c hc' with hold | hung
    · exact (ih.listed c hcs hold).imp (fun hung => hung.mono _) id
    · exact .inl hung
  · intro c hpush hc'
    rw [move_pc_of_ne s (ht _).symm] at hpush
    rcases hoff c hc' with hold | hung
    · exact (ih.pushed c hpush hold).mono _
    · exact hung
  · intro c hc
    rw [deletions_snoc] at hc
    rcases List.mem_append.mp hc with hc | hc
    · exact (ih.deleted c hc).mono _
    · exact (hdeleted c hc).mono _

theorem announced_user (hreliable : ¬S.closeFails) {tr : List (Tid U × Event)} {s : State U}
    {u : U} {e : Event} {m : UserPc} (ih : Announced S tr s) (hok : (safety S).Ok s)
    (he : UserStep S u s.shared (s.pc (.user u)) e y m) :
    Announced S (tr ++ [(.user u, e)]) (s.move (.user u) y m) := by
  have hholds := hok.holds (.user u)
  refine ⟨?_, ?_, ?_⟩
  · intro c hc hoff
    rcases user_listed hreliable hok.inv hholds he hc hoff with ⟨hcs, hold, hkeep⟩ |
        ⟨rfl, hdis⟩ | ⟨rfl, hpc, hold⟩
    · rcases ih.listed c hcs hold with hung | hdis
      · exact .inl (hung.mono _)
      · by_cases hu : S.closer = u
        · subst hu
          rw [move_pc]
          exact .inr (hkeep hdis)
        · rw [move_pc_of_ne s fun htid => hu (by injection htid)]
          exact .inr hdis
    · rw [move_pc]
      exact .inr hdis
    · exact .inl ((ih.pushed c (by rw [hpc]; rfl) hold).mono _)
  · intro c hpush hoff
    by_cases hu : S.acceptor = u
    · subst hu
      rw [move_pc] at hpush
      rw [move_shared, user_pushes he hpush] at hoff
      cases hoff
    · rw [move_pc_of_ne s fun htid => hu (by injection htid)] at hpush
      obtain ⟨hlt, hcs⟩ := (hok.holds (.user S.acceptor)).knows.pushed hpush
      exact (ih.pushed c hpush (user_disconnects hholds he hlt hcs hoff)).mono _
  · intro c hc
    have hnone : deletedOf e = none :=
      deletedOf_step (S := S) (t := .user u) (fun j hj => by cases hj) he
    rw [deletions_snoc, hnone, Option.toList_none, List.append_nil] at hc
    exact (ih.deleted c hc).mono _

theorem run_announced (hreliable : ¬S.closeFails) {tr : List (Tid U × Event)} {s : State U}
    (h : (system S).Run tr s) : Announced S tr s := by
  refine (safety S).invariant (I := fun tr s => Announced S tr s) ?_ ?_ h
  · rintro s ⟨fds, descriptors, -, hs⟩ hpc
    exact ⟨fun c hc => (by rw [hs] at hc; cases hc), fun c hc => (by rw [hpc] at hc; cases hc),
      fun c hc => by cases hc⟩
  · intro tr s t e y m hok ih he hy hg
    cases t with
    | user u => exact announced_user hreliable ih hok he.2
    | other =>
      refine announced_step ih (fun u hu => by cases hu) hg (fun c hc => .inl ?_) fun c hc => ?_
      · cases he.2 <;> exact hc
      · rw [deletedOf_step (fun j hj => by cases hj) he.2] at hc
        cases hc
    | receiver d =>
      refine announced_step ih (fun u hu => by cases hu) hg (fun c hc => ?_) fun c hc => ?_
      · rcases receiver_disconnects he.2.2 hc with hold | ⟨rfl, r, msg, rfl, heof⟩
        · exact .inl hold
        · refine .inr ?_
          rw [Hung, returnsOf_received, heof]
          exact List.mem_append_right _ (List.mem_singleton_self _)
      · rw [deletedOf_step (fun j hj => by cases hj) he.2] at hc
        cases hc
    | remover j =>
      refine announced_step ih (fun u hu => by cases hu) hg
        (fun c hc => .inl (remover_disconnects he.2.2 hc)) fun c hc => ?_
      have hholds := hok.holds (.remover j)
      obtain ⟨-, hstep⟩ := he.2
      obtain ⟨hpc, hcs, hoff⟩ := deleted_by hholds hstep hc
      rcases ih.listed c hcs hoff with hung | hdis
      · exact hung
      · have hcloser := (hok.holds (.user S.closer)).clientsMtx.mpr hdis.locked
        have hremover := hholds.clientsMtx.mpr hpc
        rw [hcloser] at hremover
        cases hremover

theorem not_running_of_deleted {tr : List (Tid U × Event)} {s : State U}
    (h : (system S).Run tr s) {c : ℕ} (hc : c ∈ deletions tr) : s.pc (.receiver c) = .done := by
  have hok := run_ok h
  obtain ⟨hlt, hdead, -⟩ := (deletions_ok h).2 c hc
  refine (hok.holds (.receiver c)).threadState.2 hlt (Bool.eq_false_of_not_eq_true fun hrun => ?_)
  have hinv : Inv S s.shared := hok.inv
  rw [(hinv.running c hrun).1] at hdead
  cases hdead

/-- What a client's thread publishes, under the client's address, is what `recv`
has returned to it, in that order and without a gap. Received bytes are published
as a C string, up to their first zero, or with bytes of the memory behind them
where they have none. An error of `recv` is published as a message that has
nothing but such bytes. The end of the stream is the last return and the last
event. Where `::close` fails only on a descriptor that is not open, no client is
deleted before that event was published. -/
theorem client_protocol {tr : List (Tid U × Event)} {s : State U} (h : (system S).Run tr s)
    (c : ℕ) :
    List.Forall₂ (fun r p => Publishes r p ∧ Tells r p) (returnsOf c tr)
        (publications c tr ++ ReceiverPc.pending (s.pc (.receiver c))) ∧
      Shape (returnsOf c tr) ∧
      (∀ clientIP e msg, (Tid.receiver c, Event.published clientIP e msg) ∈ tr →
        clientIP = (s.shared.client c).ip) ∧
      (¬S.closeFails → c ∈ deletions tr → (returnsOf c tr).getLast? = some .eof ∧
        List.Forall₂ (fun r p => Publishes r p ∧ Tells r p) (returnsOf c tr)
          (publications c tr)) := by
  have hstream := run_stream h c
  have hall : List.Forall₂ (fun r p => Publishes r p ∧ Tells r p) (returnsOf c tr)
      (publications c tr ++ ReceiverPc.pending (s.pc (.receiver c))) := by
    rw [hstream.published, returnsOf, List.forall₂_map_left_iff, List.forall₂_map_right_iff,
      List.forall₂_same]
    exact fun p hp => ⟨hstream.publishes p hp, (hstream.publishes p hp).tells⟩
  refine ⟨hall, hstream.shape,
    fun clientIP e msg hp => (hstream.own clientIP e msg hp).2, fun hreliable hc => ⟨?_, ?_⟩⟩
  · exact hstream.shape.getLast? ((run_announced hreliable h).deleted c hc)
  · rw [not_running_of_deleted h hc] at hall
    exact (List.append_nil (publications c tr)) ▸ hall

theorem client_protocol_removed : ∃ s, (system oneThread).Run removedTrace s ∧
    (returnsOf 0 removedTrace).getLast? = some .eof ∧
    List.Forall₂ (fun r p => Publishes r p ∧ Tells r p) (returnsOf 0 removedTrace)
      (publications 0 removedTrace) := by
  obtain ⟨s, hrun⟩ := exists_removed
  have hdeleted : deletions removedTrace = [0] := by decide
  refine ⟨s, hrun, (client_protocol hrun 0).2.2.2 id ?_⟩
  rw [hdeleted]
  exact List.mem_singleton_self 0

end OSwitch.TcpServer
