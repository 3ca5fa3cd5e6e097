import Mathlib.Logic.Function.Basic
import OSwitch.Lib.Trace
import OSwitch.Lib.Wire

/-!
# Internet protocol headers and reassembly (RFC 791)

The header is read as the RFC lays it out: ten 16-bit words, most significant
octet first, the fourth one holding a reserved bit, DF, MF and the 13-bit
fragment offset. Reassembly groups fragments by source, destination, protocol
and identification, and delivers the octets from 0 to the end of a fragment
without MF once all of them have arrived; where fragments overlap, the octet
that arrived first is kept.
-/

namespace Rfc791
open Wire

/-! ### Headers -/

structure Header where
  version : ℕ
  ihl : ℕ
  typeOfService : ℕ
  totalLength : ℕ
  identification : ℕ
  reserved : Bool
  dontFragment : Bool
  moreFragments : Bool
  fragmentOffset : ℕ
  timeToLive : ℕ
  protocol : ℕ
  headerChecksum : ℕ
  source : Bytes
  destination : Bytes
  deriving DecidableEq, Repr

def parse : Bytes → Option Header
  | b0 :: b1 :: b2 :: b3 :: b4 :: b5 :: b6 :: b7 :: b8 :: b9 :: b10 :: b11 ::
      s0 :: s1 :: s2 :: s3 :: d0 :: d1 :: d2 :: d3 :: _ =>
    let flags := be16 b6 b7
    some
      { version := b0.val / 16
        ihl := b0.val % 16
        typeOfService := b1.val
        totalLength := be16 b2 b3
        identification := be16 b4 b5
        reserved := flags.testBit 15
        dontFragment := flags.testBit 14
        moreFragments := flags.testBit 13
        fragmentOffset := flags % 8192
        timeToLive := b8.val
        protocol := b9.val
        headerChecksum := be16 b10 b11
        source := [s0, s1, s2, s3]
        destination := [d0, d1, d2, d3] }
  | _ => none

/-! ### Fragments -/

/-- A fragment: the position of its first octet in the datagram, its MF flag
and its octets. -/
structure Fragment (α : Type*) where
  start : ℕ
  more : Bool
  payload : List α

variable {α : Type*}

def Fragment.stop (g : Fragment α) : ℕ := g.start + g.payload.length

/-- The octet that a fragment holds for position `x` of the datagram. -/
def Fragment.octet (g : Fragment α) (x : ℕ) : Option α :=
  if g.start ≤ x then g.payload[x - g.start]? else none

/-- The octet kept for position `x` when the fragments arrived in this order. -/
def octetAt (fs : List (Fragment α)) (x : ℕ) : Option α := fs.findSome? fun g => g.octet x

/-- The fragments complete the datagram `d`: some fragment without MF ends
where `d` ends, and `d` is what they hold for the positions before that. -/
def Completes (fs : List (Fragment α)) (d : List α) : Prop :=
  ∃ g ∈ fs, g.more = false ∧ g.stop = d.length ∧ ∀ x < d.length, octetAt fs x = d[x]?

theorem octet_lt {g : Fragment α} {x : ℕ} {b : α} (h : g.octet x = some b) :
    g.start ≤ x ∧ x < g.stop := by
  unfold Fragment.octet at h
  split at h
  · have hx := (List.getElem?_eq_some_iff.mp h).1
    unfold Fragment.stop
    omega
  · cases h

theorem octetAt_mem {fs : List (Fragment α)} {x : ℕ} {b : α} (h : octetAt fs x = some b) :
    ∃ g ∈ fs, g.octet x = some b := List.exists_of_findSome?_eq_some h

/-- Every octet of the fragment is the one `d` has at that position, and
without MF the fragment ends where `d` ends. -/
structure PieceOf (d : List α) (g : Fragment α) : Prop where
  last : g.more = false → g.stop = d.length
  agrees : ∀ x b, g.octet x = some b → d[x]? = some b

/-- A cut from `d`, without MF if it reaches the end. -/
theorem pieceOf_slice {d : List α} {i k : ℕ} {more : Bool}
    (hmore : more = false → i + k = d.length) : PieceOf d ⟨i, more, (d.drop i).take k⟩ := by
  constructor
  · intro hm
    have hend := hmore hm
    simp only [Fragment.stop, List.length_take, List.length_drop]
    omega
  · intro x b hx
    simp only [Fragment.octet] at hx
    split at hx
    next hle =>
      have hlt := (List.getElem?_eq_some_iff.mp hx).1
      rw [List.length_take] at hlt
      rw [List.getElem?_take_of_lt (by omega), List.getElem?_drop] at hx
      rw [← hx]
      congr 1
      omega
    next => cases hx

/-- The fragment begins after the end of `d`, leaving a gap. -/
def Beyond (d : List α) (g : Fragment α) : Prop := d.length < g.start

/- Pieces of one datagram, mixed with fragments that begin beyond its end,
complete no other datagram: the octet at the end of `d` is in nobody's hand. -/
theorem Completes.eq_of_pieces {fs : List (Fragment α)} {d d' : List α}
    (hp : ∀ g ∈ fs, PieceOf d g ∨ Beyond d g) (h : Completes fs d') : d' = d := by
  obtain ⟨g, hg, hmore, hstop, hoct⟩ := h
  have source : ∀ x < d'.length, x ≤ d.length → d[x]? = d'[x]? := by
    intro x hx hxd
    have hb : d'[x]? = some d'[x] := List.getElem?_eq_getElem hx
    obtain ⟨g', hg', ho⟩ := octetAt_mem ((hoct x hx).trans hb)
    rcases hp g' hg' with hpiece | hbeyond
    · rw [hb]
      exact hpiece.agrees x _ ho
    · have hlt := (octet_lt ho).1
      unfold Beyond at hbeyond
      omega
  have hlen : d'.length = d.length := by
    rcases hp g hg with hpiece | hbeyond
    · exact hstop.symm.trans (hpiece.last hmore)
    · have hlt : d.length < d'.length := by
        unfold Beyond at hbeyond
        unfold Fragment.stop at hstop
        omega
      have hgap := source d.length hlt le_rfl
      rw [List.getElem?_eq_getElem hlt] at hgap
      simp at hgap
  apply List.ext_getElem?
  intro x
  by_cases hx : x < d'.length
  · exact (source x hx (by omega)).symm
  · rw [List.getElem?_eq_none (by omega), List.getElem?_eq_none (by omega)]

theorem octetAt_isSome {fs : List (Fragment α)} {g : Fragment α} {x : ℕ} {b : α}
    (hg : g ∈ fs) (h : g.octet x = some b) : ∃ c, octetAt fs x = some c := by
  have hne : octetAt fs x ≠ none := by
    intro hn
    have hh := List.findSome?_eq_none_iff.mp hn g hg
    rw [h] at hh
    cases hh
  exact Option.ne_none_iff_exists'.mp hne

/-- Pieces of `d` that hold all of its octets, the last one among them,
complete `d`. -/
theorem completes_of_pieces {fs : List (Fragment α)} {d : List α}
    (hp : ∀ g ∈ fs, PieceOf d g) (hlast : ∃ g ∈ fs, g.more = false)
    (hcov : ∀ x < d.length, ∃ g ∈ fs, g.start ≤ x ∧ x < g.stop) : Completes fs d := by
  obtain ⟨g, hg, hmore⟩ := hlast
  refine ⟨g, hg, hmore, (hp g hg).last hmore, ?_⟩
  intro x hx
  obtain ⟨c, hc, hs, he⟩ := hcov x hx
  have hlt : x - c.start < c.payload.length := by
    unfold Fragment.stop at he
    omega
  have hoc : c.octet x = some (c.payload[x - c.start]) := by
    simp only [Fragment.octet, if_pos hs, List.getElem?_eq_getElem hlt]
  obtain ⟨b, hb⟩ := octetAt_isSome hc hoc
  obtain ⟨g', hg', ho⟩ := octetAt_mem hb
  rw [hb, (hp g' hg').agrees x b ho]

/-- A fragment that begins behind octet 0 completes nothing on its own. -/
theorem not_completes_singleton {g : Fragment α} (h : 0 < g.start) (d : List α) :
    ¬Completes [g] d := by
  rintro ⟨g', hg', -, hstop, hoct⟩
  obtain rfl : g' = g := List.mem_singleton.mp hg'
  have hpos : 0 < d.length := by
    unfold Fragment.stop at hstop
    omega
  obtain ⟨c, hc, ho⟩ := octetAt_mem ((hoct 0 hpos).trans (List.getElem?_eq_getElem hpos))
  rw [List.mem_singleton.mp hc] at ho
  exact absurd (octet_lt ho).1 (by omega)

theorem not_completes_of_more {fs : List (Fragment α)} (h : ∀ g ∈ fs, g.more = true)
    (d : List α) : ¬Completes fs d := by
  rintro ⟨g, hg, hmore, -⟩
  rw [h g hg] at hmore
  cases hmore

/-- The front of one fragment and the whole of another one, whose start it
reaches: that the two belong together is not checked. -/
theorem completes_overlap {front last : Fragment α} (hfront : front.start = 0)
    (hmore : last.more = false) (hreach : last.start ≤ front.payload.length) :
    Completes [last, front] (front.payload.take last.start ++ last.payload) := by
  have hlen : (front.payload.take last.start).length = last.start := by
    rw [List.length_take]
    omega
  refine ⟨last, by simp, hmore, ?_, ?_⟩
  · rw [List.length_append, hlen]
    rfl
  · intro x hx
    rw [List.length_append, hlen] at hx
    simp only [octetAt, List.findSome?_cons, List.findSome?_nil]
    by_cases hlt : x < last.start
    · have hlast : last.octet x = none := if_neg (by omega)
      have hget : front.octet x = some (front.payload[x]) := by
        unfold Fragment.octet
        rw [if_pos (by omega), hfront, Nat.sub_zero, List.getElem?_eq_getElem (by omega)]
      rw [hlast, hget, List.getElem?_append_left (by omega), List.getElem?_take_of_lt hlt,
        List.getElem?_eq_getElem (by omega)]
    · have hget : last.octet x = some (last.payload[x - last.start]) := by
        unfold Fragment.octet
        rw [if_pos (by omega), List.getElem?_eq_getElem (by omega)]
      rw [hget, List.getElem?_append_right (by omega), hlen, List.getElem?_eq_getElem (by omega)]

/-! ### The receiver -/

/-- What tells the datagrams apart to which fragments belong. -/
structure BufferId where
  source : Bytes
  destination : Bytes
  protocol : ℕ
  identification : ℕ
  deriving DecidableEq, Repr

/-- The buffer a received packet belongs to and the fragment it carries. -/
def fragmentOf (bs : Bytes) : Option (BufferId × Fragment Byte) :=
  (parse bs).map fun h =>
    (⟨h.source, h.destination, h.protocol, h.identification⟩,
      ⟨8 * h.fragmentOffset, h.moreFragments,
        (bs.drop (4 * h.ihl)).take (h.totalLength - 4 * h.ihl)⟩)

abbrev Buffers := BufferId → List (Fragment Byte)

/- One arrival. The label is the packet together with the datagram that it
completes, if any; resources of a delivered datagram are released. When more
than one fragment without MF is complete, any of them may be the end. -/
inductive Receive : Buffers → Bytes × Option Bytes → Buffers → Prop
  | malformed {st f} : fragmentOf f = none → Receive st (f, none) st
  | hold {st f k g} : fragmentOf f = some (k, g) → (∀ d, ¬Completes (st k ++ [g]) d) →
      Receive st (f, none) (Function.update st k (st k ++ [g]))
  | deliver {st f k g d} : fragmentOf f = some (k, g) → Completes (st k ++ [g]) d →
      Receive st (f, some d) (Function.update st k [])

def receiver : Trace.Lts Buffers (Bytes × Option Bytes) where
  init st := st = fun _ => []
  step := Receive

def arrived (tr : List (Bytes × Option Bytes)) : List Bytes := tr.map Prod.fst
def delivered (tr : List (Bytes × Option Bytes)) : List Bytes := tr.filterMap Prod.snd

@[simp] theorem arrived_snoc (tr : List (Bytes × Option Bytes)) (e : Bytes × Option Bytes) :
    arrived (tr ++ [e]) = arrived tr ++ [e.1] := by simp [arrived]

@[simp] theorem delivered_snoc_none (tr : List (Bytes × Option Bytes)) (f : Bytes) :
    delivered (tr ++ [(f, none)]) = delivered tr := by simp [delivered]

@[simp] theorem delivered_snoc_some (tr : List (Bytes × Option Bytes)) (f d : Bytes) :
    delivered (tr ++ [(f, some d)]) = delivered tr ++ [d] := by simp [delivered]

theorem forall_update {P : Fragment Byte → Prop} {st : Buffers} {k : BufferId}
    {fs : List (Fragment Byte)} (h : ∀ k, ∀ g ∈ st k, P g) (hfs : ∀ g ∈ fs, P g) :
    ∀ k', ∀ g ∈ Function.update st k fs k', P g := by
  intro k' g hg
  by_cases hk : k' = k
  · subst hk
    rw [Function.update_self] at hg
    exact hfs g hg
  · rw [Function.update_of_ne hk] at hg
    exact h k' g hg

/-- If all that ever arrives are pieces of `d` and fragments beyond its end,
then nothing but `d` is delivered. -/
theorem delivered_eq_of_pieces {tr : List (Bytes × Option Bytes)} {st : Buffers} {d : Bytes}
    (h : receiver.Run tr st)
    (hp : ∀ f ∈ arrived tr, ∀ k g, fragmentOf f = some (k, g) → PieceOf d g ∨ Beyond d g) :
    (∀ k, ∀ g ∈ st k, PieceOf d g ∨ Beyond d g) ∧ ∀ d' ∈ delivered tr, d' = d := by
  induction h with
  | init hi =>
    have hnil := hi
    subst hnil
    constructor
    · intro k g hg
      cases hg
    · intro d' hd
      cases hd
  | @snoc tr st e st' _ he ih =>
    rw [arrived_snoc] at hp
    obtain ⟨hst, hout⟩ := ih fun f hf => hp f (List.mem_append_left _ hf)
    have hnew := hp e.1 (List.mem_append_right _ (List.mem_singleton.mpr rfl))
    have hpieces : ∀ {k g}, fragmentOf e.1 = some (k, g) →
        ∀ g' ∈ st k ++ [g], PieceOf d g' ∨ Beyond d g' := by
      intro k g hf g' hg'
      rcases List.mem_append.mp hg' with hold | hnewest
      · exact hst k g' hold
      · rw [List.mem_singleton.mp hnewest]
        exact hnew k g hf
    cases he with
    | malformed hf => exact ⟨hst, by simpa using hout⟩
    | hold hf hno => exact ⟨forall_update hst (hpieces hf), by simpa using hout⟩
    | deliver hf hc =>
      refine ⟨forall_update hst (by simp), ?_⟩
      intro d' hd'
      rw [delivered_snoc_some] at hd'
      rcases List.mem_append.mp hd' with hold | hnewest
      · exact hout d' hold
      · rw [List.mem_singleton.mp hnewest]
        exact hc.eq_of_pieces (hpieces hf)

end Rfc791
