import Mathlib.Data.List.SplitLengths
import Esp32Probes.Modbus.Segmentation

/-!
# `Modbus.SharpCuts` — only the good cuts are invisible

Whether a cut can be seen depends on the contents of the requests; a cut is *invisible for a shape* if it
gives the same service for all requests with the given function codes and lengths. This file shows that the
only such cuts are the good ones.

The test contents are *uniform* requests, all free bytes 1. Every reply to a chunk that starts a uniform
request is a 9-byte exception beginning with `1 1 0 0`; that pattern occurs in the stream only where a
request starts (`fragment_take_ne`), and a reply begins like the chunk it answers. So equal output forces a
chunk of at least 8 bytes at the start of every request, and by its exception code a chunk with all of an
FC03 or FC06 request. `cut_of_service` carries this through the stream by induction on the chunks.
-/

namespace Esp32Probes
namespace Modbus

open Machine BigEndian Framing

/-! ## Uniform requests -/

/-- The request with function code `fn` and `len` bytes whose free bytes are all 1. -/
def uniformBytes (fn : UInt8) (len : Nat) : Bytes :=
  [1, 1, 0, 0, 0, UInt8.ofNat (len - 6), 1, fn] ++ List.replicate (len - 8) 1

theorem Adu.length_ge (a : Adu) : 8 ≤ a.bytes.length := by
  have := a.declared; have := a.min; omega

theorem Adu.length_le (a : Adu) : a.bytes.length ≤ 260 := by
  have := a.declared; have := a.max; omega

theorem length_uniformBytes (fn : UInt8) {len : Nat} (h : 8 ≤ len) : (uniformBytes fn len).length = len := by
  simp [uniformBytes]; omega

/-- The uniform request of the same shape as `a`. -/
def Adu.uniform (a : Adu) : Adu where
  bytes := uniformBytes (byteAt a.bytes 7) a.bytes.length
  protocol := by
    show be16 0 0 = 0
    decide
  declared := by
    have hlo := a.length_ge
    have hhi := a.length_le
    rw [length_uniformBytes _ hlo]
    show _ = 6 + (be16 0 (UInt8.ofNat (a.bytes.length - 6))).toNat
    rw [toNat_be16, UInt8.toNat_ofNat']
    show _ = 6 + (0 * 256 + _)
    omega
  min := by
    have hlo := a.length_ge
    have hhi := a.length_le
    show 2 ≤ (be16 0 (UInt8.ofNat (a.bytes.length - 6))).toNat
    rw [toNat_be16, UInt8.toNat_ofNat']
    omega
  max := by
    have hlo := a.length_ge
    have hhi := a.length_le
    show (be16 0 (UInt8.ofNat (a.bytes.length - 6))).toNat ≤ 254
    rw [toNat_be16, UInt8.toNat_ofNat']
    show 0 * 256 + _ ≤ 254
    omega
  pdu := fun h => by
    rw [length_uniformBytes _ a.length_ge]
    exact a.pdu h

@[simp] theorem Adu.length_uniform (a : Adu) : a.uniform.bytes.length = a.bytes.length :=
  length_uniformBytes _ a.length_ge

@[simp] theorem Adu.function_uniform (a : Adu) : byteAt a.uniform.bytes 7 = byteAt a.bytes 7 := rfl

/-! ## What a chunk at the start of a uniform request is answered -/

/-- The exception code for a chunk of `n` bytes at the start of a uniform request. -/
def startCode (fn : UInt8) (n : Nat) : UInt8 :=
  if fn = 3 ∨ fn = 6 then (if n < 12 then 3 else 2) else 1

/-- The reply to a chunk of `n` bytes at the start of the uniform request of `a`. -/
def startFrame (a : Adu) (n : Nat) : Bytes :=
  [1, 1, 0, 0, 0, 3, 1, byteAt a.bytes 7 ||| 0x80, startCode (byteAt a.bytes 7) n]

/-- The operands of a uniform FC03 or FC06 request are out of range, so every request is refused. -/
theorem verdict_start (a : Adu) {c w : Bytes} (hc : c <+: a.uniform.bytes ++ w) (h8 : 8 ≤ c.length) :
    verdict c = .refuse (startCode (byteAt a.bytes 7) c.length) := by
  have hu : a.uniform.bytes <+: a.uniform.bytes ++ w := List.prefix_append _ _
  have hat : ∀ i, i < c.length → i < a.bytes.length → byteAt c i = byteAt a.uniform.bytes i := by
    intro i hi ha
    rw [byteAt_of_isPrefix hc hi, ← byteAt_of_isPrefix hu (by rw [a.length_uniform]; exact ha)]
  have h7 : byteAt c 7 = byteAt a.bytes 7 := hat 7 (by omega) a.length_ge
  by_cases hfn : byteAt a.bytes 7 = 3 ∨ byteAt a.bytes 7 = 6
  · have hlen := a.pdu hfn
    by_cases h12 : c.length < 12
    · have h8' : ¬ c.length < 8 := by omega
      rcases hfn with h | h <;> simp [verdict, startCode, h7, h, h8', h12]
    · have hone : ∀ i, 8 ≤ i → i < 12 → byteAt c i = 1 := by
        intro i hi hi'
        rw [hat i (by omega) (by omega)]
        show byteAt (uniformBytes _ _) i = 1
        unfold byteAt uniformBytes
        rw [List.getD_append_right _ _ _ _ (by simpa using hi), List.getD_replicate _ (by simp; omega)]
      have hw8 : wordAt c 8 = 257 := by
        rw [wordAt, hone 8 (by omega) (by omega), hone 9 (by omega) (by omega)]; decide
      have hw10 : wordAt c 10 = 257 := by
        rw [wordAt, hone 10 (by omega) (by omega), hone 11 (by omega) (by omega)]; decide
      have h8' : ¬ c.length < 8 := by omega
      rcases hfn with h | h <;> simp [verdict, startCode, h7, h, h8', h12, hw8, hw10]
  · rw [not_or] at hfn
    rw [verdict_other h8 (h7 ▸ hfn.1) (h7 ▸ hfn.2), startCode, if_neg (by rw [not_or]; exact hfn)]

/-- A chunk of at least 8 bytes at the start of a uniform request is answered by its start frame. -/
theorem handleChunk_start (a : Adu) (regs : Regs) {c w : Bytes} (hc : c <+: a.uniform.bytes ++ w)
    (h8 : 8 ≤ c.length) : handleChunk regs c = (regs, startFrame a c.length) := by
  have hv := verdict_start a hc h8
  have hu : a.uniform.bytes <+: a.uniform.bytes ++ w := List.prefix_append _ _
  have h6 : byteAt c 6 = 1 := by
    rw [byteAt_of_isPrefix hc (by omega), ← byteAt_of_isPrefix hu (by have := a.length_ge; simp; omega)]; rfl
  have h7 : byteAt c 7 = byteAt a.bytes 7 := by
    rw [byteAt_of_isPrefix hc (by omega), ← byteAt_of_isPrefix hu (by have := a.length_ge; simp; omega)]; rfl
  have h4 : c.take 4 = [1, 1, 0, 0] := by rw [take_of_isPrefix hc (by omega)]; rfl
  rw [handleChunk, reply_refuse regs hv, exceptionFrame, h4, h6, h7]
  simp [regsAfter, hv, startFrame]

/-- Any reply begins with the first four bytes of the chunk it answers. -/
theorem reply_take (regs : Regs) {c : Bytes} (h8 : 8 ≤ c.length) :
    ∃ r, reply regs c = some r ∧ r.take 4 = c.take 4 ∧ 4 ≤ r.length := by
  cases hv : verdict c with
  | ignore => exact absurd (verdict_ignore_iff.mp hv) (by omega)
  | refuse code =>
      refine ⟨_, reply_refuse regs hv, take_header (by omega) _, ?_⟩
      rw [length_exceptionFrame (by omega)]; omega
  | read start count =>
      refine ⟨_, reply_read regs hv, ?_, ?_⟩
      · rw [registersFrame, List.append_assoc, List.append_assoc]; exact take_header (by omega) _
      · rw [length_registersFrame (by omega)]; omega
  | write reg value =>
      refine ⟨_, reply_write regs hv, ?_, ?_⟩
      · rw [List.take_take]; rfl
      · rw [List.length_take]; omega

/-! ## Where the start pattern occurs -/

/-- What is left of a uniform request once its first bytes are gone; empty if all of them are. -/
def Fragment (u : Bytes) : Prop := ∃ (a : Adu) (n : Nat), 0 < n ∧ u = a.uniform.bytes.drop n

/-- The stream of the uniform requests. -/
def uniformStream (as : List Adu) : Bytes := (as.map (fun a => a.uniform.bytes)).flatten

theorem uniformStream_cons (a : Adu) (as : List Adu) :
    uniformStream (a :: as) = a.uniform.bytes ++ uniformStream as := rfl

theorem fragment_nil : Fragment [] := ⟨writeZero, 12, by decide, by decide⟩

theorem Fragment.drop {u : Bytes} (hu : Fragment u) (k : Nat) : Fragment (u.drop k) := by
  obtain ⟨a, n, hn, rfl⟩ := hu
  exact ⟨a, n + k, by omega, by rw [List.drop_drop]⟩

/-- From offset 8 of a uniform request to the second byte of the next one, the stream is all ones. -/
theorem byteAt_one {a : Adu} {as : List Adu} {j : Nat} (h8 : 8 ≤ j) (hj : j < a.bytes.length + 2)
    (hlen : j < (uniformStream (a :: as)).length) : byteAt (uniformStream (a :: as)) j = 1 := by
  rw [uniformStream_cons] at hlen ⊢
  unfold byteAt
  rcases Nat.lt_or_ge j a.bytes.length with hin | hout
  · rw [List.getD_append _ _ _ _ (by rw [a.length_uniform]; exact hin)]
    show (uniformBytes _ _).getD j 0 = 1
    rw [uniformBytes, List.getD_append_right _ _ _ _ (by simpa using h8),
      List.getD_replicate _ (by simp; omega)]
  · rw [List.getD_append_right _ _ _ _ (by rw [a.length_uniform]; exact hout), a.length_uniform]
    rw [List.length_append, a.length_uniform] at hlen
    cases as with
    | nil => simp [uniformStream] at hlen; omega
    | cons b bs =>
        rcases (by omega : j - a.bytes.length = 0 ∨ j - a.bytes.length = 1) with h | h <;> rw [h] <;> rfl

/-- **The start pattern occurs only where a request starts.** -/
theorem fragment_take_ne {u : Bytes} (hu : Fragment u) (hne : u ≠ []) (as : List Adu)
    (h4 : 4 ≤ (u ++ uniformStream as).length) : (u ++ uniformStream as).take 4 ≠ [1, 1, 0, 0] := by
  obtain ⟨a, n, hn, rfl⟩ := hu
  have hlt : n < a.bytes.length := by
    by_contra hge
    exact hne (List.drop_eq_nil_of_le (by rw [a.length_uniform]; omega))
  have hdrop : a.uniform.bytes.drop n ++ uniformStream as = (uniformStream (a :: as)).drop n := by
    rw [uniformStream_cons, List.drop_append_of_le_length (by rw [a.length_uniform]; omega)]
  rw [hdrop] at h4 ⊢
  rw [List.length_drop] at h4
  intro htake
  have hat : ∀ i, i < 4 → byteAt (uniformStream (a :: as)) (n + i) = byteAt [1, 1, 0, 0] i := by
    intro i hi
    rw [← htake]
    unfold byteAt
    rw [List.getD_eq_getElem _ _ (by omega), List.getD_eq_getElem _ _ (by simp; omega), List.getElem_take,
      List.getElem_drop]
  -- the bytes of the header that break the pattern, by the place at which the fragment starts
  have hzero : ∀ i, 2 ≤ i → i < 5 → byteAt (uniformStream (a :: as)) i = 0 := by
    intro i hlo hhi
    rcases (by omega : i = 2 ∨ i = 3 ∨ i = 4) with rfl | rfl | rfl <;> rfl
  have hlength : byteAt (uniformStream (a :: as)) 5 = UInt8.ofNat (a.bytes.length - 6) := rfl
  have h0 : byteAt (uniformStream (a :: as)) n = 1 := hat 0 (by omega)
  rcases (by omega : n = 1 ∨ n = 2 ∨ n = 3 ∨ n = 4 ∨ n = 5 ∨ 6 ≤ n) with
    rfl | rfl | rfl | rfl | rfl | h6
  · have h1 := hat 1 (by omega)
    rw [hzero 2 (by omega) (by omega)] at h1
    exact absurd h1 (by decide)
  · rw [hzero 2 (by omega) (by omega)] at h0; exact absurd h0 (by decide)
  · rw [hzero 3 (by omega) (by omega)] at h0; exact absurd h0 (by decide)
  · rw [hzero 4 (by omega) (by omega)] at h0; exact absurd h0 (by decide)
  · rw [hlength] at h0
    have hL : (UInt8.ofNat (a.bytes.length - 6)).toNat = 1 := congrArg UInt8.toNat h0
    rw [UInt8.toNat_ofNat'] at hL
    have hlo := a.min
    have hhi := a.max
    have hdecl := a.declared
    omega
  · have h2 := hat 2 (by omega)
    rw [byteAt_one (by omega) (by omega) (by omega)] at h2
    exact absurd h2 (by decide)

/-- Whatever is cut off the front of the stream, a fragment and the stream of fewer requests remain. -/
theorem uniformStream_drop (as : List Adu) (k : Nat) (hk : 0 < k) (hle : k ≤ (uniformStream as).length) :
    ∃ u as', Fragment u ∧ as'.length < as.length ∧ (uniformStream as).drop k = u ++ uniformStream as' := by
  induction as generalizing k with
  | nil => simp [uniformStream] at hle; omega
  | cons a as ih =>
      rw [uniformStream_cons, List.length_append, a.length_uniform] at hle
      rw [uniformStream_cons]
      rcases Nat.lt_or_ge a.bytes.length k with hlt | hge
      · obtain ⟨u, as', hu, hlen, hdrop⟩ := ih (k - a.bytes.length) (by omega) (by omega)
        refine ⟨u, as', hu, by rw [List.length_cons]; omega, ?_⟩
        rw [List.drop_append, List.drop_eq_nil_of_le (by rw [a.length_uniform]; omega), a.length_uniform,
          List.nil_append, hdrop]
      · exact ⟨_, as, ⟨a, k, hk, rfl⟩, Nat.lt_succ_self _,
          List.drop_append_of_le_length (by rw [a.length_uniform]; exact hge)⟩

/-- A chunk that runs past what it starts in uses up a request: behind it stand a fragment and the stream of
    fewer requests. -/
theorem overrun {u : Bytes} {as : List Adu} {c rest : Bytes} (hcat : c ++ rest = u ++ uniformStream as)
    (hlt : u.length < c.length) :
    ∃ u' as', Fragment u' ∧ as'.length < as.length ∧ rest = u' ++ uniformStream as' := by
  have hlen : c.length ≤ u.length + (uniformStream as).length := by
    rw [← List.length_append, ← hcat, List.length_append]
    exact Nat.le_add_right _ _
  obtain ⟨u', as', hu', hfewer, hdrop⟩ := uniformStream_drop as (c.length - u.length) (by omega) (by omega)
  refine ⟨u', as', hu', hfewer, ?_⟩
  have hrest : rest = (c ++ rest).drop c.length := List.drop_left.symm
  rw [hrest, hcat, ← hdrop, List.drop_append,
    List.drop_eq_nil_of_le (by omega), List.nil_append]

/-- A chunk within what it starts in leaves the rest of that. -/
theorem within {u s c rest : Bytes} (hcat : c ++ rest = u ++ s) (hle : c.length ≤ u.length) :
    c <+: u ∧ rest = u.drop c.length ++ s := by
  have hpre : c <+: u ++ s := ⟨rest, hcat⟩
  refine ⟨List.prefix_of_prefix_length_le hpre (List.prefix_append u s) hle, ?_⟩
  rw [← List.drop_append_of_le_length hle, ← hcat, List.drop_left]

/-! ## Reading the cut off the service -/

/-- The reply to the whole uniform request of `a`. -/
def fullFrame (a : Adu) : Bytes := startFrame a a.bytes.length

/-- A chunk that is refused like the whole request holds what the request needs. -/
theorem need_le_of_startCode (a : Adu) {n : Nat} (h8 : 8 ≤ n)
    (h : startCode (byteAt a.bytes 7) n = startCode (byteAt a.bytes 7) a.bytes.length) :
    need a.uniform.bytes ≤ n := by
  unfold need
  rw [a.function_uniform]
  split_ifs with hfn
  · rw [startCode, startCode, if_pos hfn, if_pos hfn, a.pdu hfn] at h
    by_contra hlt
    rw [if_pos (by omega), if_neg (by omega)] at h
    exact absurd h (by decide)
  · exact h8

/-- The chunks `cs` continue inside a request: the fragment `u` of it comes in quiet chunks, and the
    requests `as` after it are cut well. -/
def CutAfter (u : Bytes) (as : List Adu) (cs : List Bytes) : Prop :=
  ∃ qs cs', cs = qs ++ cs' ∧ qs.flatten = u ∧ (∀ q ∈ qs, q.length < 8) ∧
    GoodCut need 8 (as.map (fun a => a.uniform.bytes)) cs'

/-- A chunk of fewer than 8 bytes inside a remainder changes nothing. -/
theorem CutAfter.quiet {u c : Bytes} {as : List Adu} {cs : List Bytes} (h8 : c.length < 8) (hc : c <+: u)
    (h : CutAfter (u.drop c.length) as cs) : CutAfter u as (c :: cs) := by
  obtain ⟨qs, cs', rfl, hqs, hquiet, hcut⟩ := h
  obtain ⟨rest, rfl⟩ := hc
  refine ⟨c :: qs, cs', rfl, by rw [List.flatten_cons, hqs, List.drop_left], ?_, hcut⟩
  intro q hq
  rcases List.mem_cons.mp hq with rfl | hq
  · exact h8
  · exact hquiet q hq

/-- A chunk with the bytes that an ADU needs serves it and leaves its remainder. -/
theorem CutAfter.start {a : Adu} {c : Bytes} {as : List Adu} {cs : List Bytes}
    (hneed : need a.uniform.bytes ≤ c.length) (hc : c <+: a.uniform.bytes)
    (h : CutAfter (a.uniform.bytes.drop c.length) as cs) : CutAfter [] (a :: as) (c :: cs) := by
  obtain ⟨qs, cs', rfl, hqs, hquiet, hcut⟩ := h
  obtain ⟨rest, hrest⟩ := hc
  rw [← hrest, List.drop_left] at hqs
  exact ⟨[], _, rfl, rfl, by simp, .cons qs (by rw [hqs, hrest]) hneed hquiet hcut⟩

/-- Where no request is under way, the cut is good: a chunk is not empty. -/
theorem CutAfter.goodCut {as : List Adu} {cs : List Bytes} (h : CutAfter [] as cs) (hne : ∀ c ∈ cs, c ≠ []) :
    GoodCut need 8 (as.map (fun a => a.uniform.bytes)) cs := by
  obtain ⟨qs, cs', rfl, hqs, _, hcut⟩ := h
  cases qs with
  | nil => exact hcut
  | cons q qs =>
      have hq : q = [] := (List.append_eq_nil_iff.mp hqs).1
      exact absurd hq (hne q List.mem_cons_self)

/-- A chunk whose answer begins with the start pattern starts a request, and is refused for what it holds
    of that request. -/
theorem answered_start {u c : Bytes} {as : List Adu} {regs : Regs} {r t : Bytes} (hu : Fragment u)
    (hpre : c <+: u ++ uniformStream as) (h8 : 8 ≤ c.length) (hr : (handleChunk regs c).2 = r)
    (hpat : (r ++ t).take 4 = [1, 1, 0, 0]) :
    u = [] ∧ ∃ a as', as = a :: as' ∧ r = startFrame a c.length := by
  obtain ⟨r', hr', htake, hrlen⟩ := reply_take regs h8
  have hrr : r' = r := by rw [← hr, handleChunk, hr']; rfl
  subst hrr
  have hlen := hpre.length_le
  have h4 : c.take 4 = (u ++ uniformStream as).take 4 := take_of_isPrefix hpre (by omega)
  rw [List.take_append_of_le_length hrlen, htake, h4] at hpat
  have hunil : u = [] := by
    by_contra hne
    exact fragment_take_ne hu hne as (by omega) hpat
  subst hunil
  cases as with
  | nil => exact absurd (Nat.le_trans h8 hlen) (by decide)
  | cons a as => exact ⟨rfl, a, as, rfl, by rw [← hr, handleChunk_start a regs hpre h8]⟩

/-- **The service shows the cut.** Chunks that cut a fragment and the stream of the requests `as`, and that
    are served like the whole requests `rs`, contain a start of a request for each of `rs`; if these are all
    the requests, the cut is good. Induction on the chunks: a chunk that is answered must start a request,
    and a chunk that runs past the start of a request uses that request up unanswered. -/
theorem cut_of_service {cs : List Bytes} {u : Bytes} {as rs : List Adu} {regs : Regs} (hu : Fragment u)
    (hne : ∀ c ∈ cs, c ≠ []) (hcat : cs.flatten = u ++ uniformStream as)
    (hout : (serve handleChunk regs cs).2 = (rs.map fullFrame).flatten) :
    rs.length ≤ as.length ∧ (rs = as → CutAfter u as cs) := by
  induction cs generalizing u as rs regs with
  | nil =>
      have hnil : u = [] ∧ uniformStream as = [] := List.append_eq_nil_iff.mp hcat.symm
      have has : as = [] := by
        cases as with
        | nil => rfl
        | cons a as => exact absurd hnil.2 (by simp [uniformStream_cons, Adu.uniform, uniformBytes])
      have hrs : rs = [] := by
        cases rs with
        | nil => rfl
        | cons r rs => exact absurd hout (by simp [serve, fullFrame, startFrame])
      subst has hrs
      exact ⟨Nat.le_refl 0, fun _ => ⟨[], [], rfl, hnil.1.symm, by simp, .nil⟩⟩
  | cons c cs ih =>
      have hne' : ∀ c' ∈ cs, c' ≠ [] := fun c' hc' => hne c' (List.mem_cons_of_mem c hc')
      have hpos : 0 < c.length := List.length_pos_of_ne_nil (hne c List.mem_cons_self)
      rw [List.flatten_cons] at hcat
      rw [serve] at hout
      rcases Nat.lt_or_ge c.length 8 with h8 | h8
      · rw [handleChunk_quiet regs c h8] at hout
        rcases Nat.lt_or_ge u.length c.length with hlt | hge
        · -- the ignored chunk runs into the next request, which is never answered
          obtain ⟨u', as', hu', hfewer, hrest⟩ := overrun hcat hlt
          obtain ⟨hle, _⟩ := ih hu' hne' hrest hout
          exact ⟨by omega, fun heq => by rw [heq] at hle; omega⟩
        · obtain ⟨hpre, hrest⟩ := within hcat hge
          obtain ⟨hle, hgood⟩ := ih (hu.drop c.length) hne' hrest hout
          exact ⟨hle, fun heq => (hgood heq).quiet h8 hpre⟩
      · cases rs with
        | nil =>
            -- a chunk of 8 bytes is answered, but no answer is expected
            obtain ⟨r, hr, _, hrlen⟩ := reply_take regs h8
            have hnil : (handleChunk regs c).2 = [] := (List.append_eq_nil_iff.mp hout).1
            rw [handleChunk, hr] at hnil
            change r = [] at hnil
            exact absurd hrlen (by rw [hnil]; decide)
        | cons r₀ rs =>
            rw [List.map_cons, List.flatten_cons] at hout
            have hpat := congrArg (List.take 4) hout
            obtain ⟨rfl, a, as, rfl, hr⟩ := answered_start hu ⟨_, hcat⟩ h8 rfl hpat
            rw [hr] at hout
            obtain ⟨hframe, htail⟩ := List.append_inj hout rfl
            rw [List.nil_append, uniformStream_cons] at hcat
            rw [List.length_cons, List.length_cons]
            rcases Nat.lt_or_ge a.uniform.bytes.length c.length with hlt | hge
            · -- the answered chunk runs into the next request, which is never answered
              obtain ⟨u', as', hu', hfewer, hrest⟩ := overrun hcat hlt
              obtain ⟨hle, _⟩ := ih hu' hne' hrest htail
              refine ⟨by omega, fun heq => ?_⟩
              obtain ⟨_, rfl⟩ := List.cons.inj heq
              omega
            · obtain ⟨hpre, hrest⟩ := within hcat hge
              obtain ⟨hle, hgood⟩ := ih ⟨a, c.length, hpos, rfl⟩ hne' hrest htail
              refine ⟨by omega, fun heq => ?_⟩
              obtain ⟨rfl, heq'⟩ := List.cons.inj heq
              -- the answer is that of the whole request, so the chunk holds what the request needs
              have hcode : startCode (byteAt r₀.bytes 7) c.length
                  = startCode (byteAt r₀.bytes 7) r₀.bytes.length := by
                simpa [fullFrame, startFrame] using hframe
              exact (hgood heq').start (need_le_of_startCode r₀ h8 hcode) hpre

/-! ## The invisible cuts -/

/-- What a cut may depend on: the function code and the length of a request. -/
def Adu.shape (a : Adu) : UInt8 × Nat := (byteAt a.bytes 7, a.bytes.length)

theorem need_of_shape (a : Adu) :
    (need a.bytes, a.bytes.length)
      = (fun p : UInt8 × Nat => (if p.1 = 3 ∨ p.1 = 6 then 12 else 8, p.2)) a.shape :=
  rfl

theorem map_need_of_shape {as bs : List Adu} (h : as.map Adu.shape = bs.map Adu.shape) :
    (as.map Adu.bytes).map (fun b => (need b, b.length))
      = (bs.map Adu.bytes).map (fun b => (need b, b.length)) := by
  have hfactor : ∀ l : List Adu, (l.map Adu.bytes).map (fun b => (need b, b.length))
      = (l.map Adu.shape).map (fun p => (if p.1 = 3 ∨ p.1 = 6 then 12 else 8, p.2)) := by
    intro l
    rw [List.map_map, List.map_map]
    exact List.map_congr_left (fun a _ => need_of_shape a)
  rw [hfactor, hfactor, h]

theorem exists_deliveries (cs : List Bytes) (h : ∀ c ∈ cs, 1 ≤ c.length ∧ c.length ≤ 260) :
    ∃ ds : List Delivery, ds.map Delivery.bytes = cs := by
  induction cs with
  | nil => exact ⟨[], rfl⟩
  | cons c cs ih =>
      obtain ⟨ds, rfl⟩ := ih (fun c' hc' => h c' (List.mem_cons_of_mem c hc'))
      exact ⟨deliver ⟨c, h c List.mem_cons_self⟩ :: ds, rfl⟩

/-- Any stream of the right length can be received in chunks of the given lengths. -/
theorem exists_cut (ds : List Delivery) {b : Bytes} (h : (ds.map (fun d => d.bytes.length)).sum = b.length) :
    ∃ cut : List Delivery, cut.map (fun d => d.bytes.length) = ds.map (fun d => d.bytes.length) ∧
      (cut.map Delivery.bytes).flatten = b := by
  have hlens := List.map_splitLengths_length b (ds.map (fun d => d.bytes.length)) (by omega)
  obtain ⟨cut, hcut⟩ := exists_deliveries ((ds.map (fun d => d.bytes.length)).splitLengths b) (by
      intro c hc
      have hmem := List.mem_map_of_mem (f := List.length) hc
      rw [hlens] at hmem
      obtain ⟨d, _, hd⟩ := List.mem_map.mp hmem
      rw [← hd]
      exact d.buf.2)
  refine ⟨cut, ?_, ?_⟩
  · rw [← hlens, ← hcut, List.map_map]; rfl
  · rw [hcut]; exact List.flatten_splitLengths b _ (by omega)

/-- Whole uniform requests are answered by their full frames. -/
theorem serve_uniform (regs : Regs) (as : List Adu) :
    (serve handleChunk regs (as.map (fun a => a.uniform.bytes))).2 = (as.map fullFrame).flatten := by
  induction as generalizing regs with
  | nil => rfl
  | cons a as ih =>
      have hhead := handleChunk_start a regs (w := []) (List.prefix_append _ _) (by simpa using a.length_ge)
      rw [List.map_cons, serve, hhead, ih, a.length_uniform]
      rfl

/-- **The invisible cuts are the good cuts.** Given how the stream of some requests is cut into received
    chunks, all requests of the same shapes cut at the same places are served, on every connection, as if
    each had arrived whole, if and only if the cut is good. -/
theorem segmentation_iff (adus : List Adu) (ds : List Delivery)
    (hcut : (ds.map Delivery.bytes).flatten = stream adus) :
    GoodCut need 8 (adus.map Adu.bytes) (ds.map Delivery.bytes) ↔
      ∀ (s : Server) (adus' : List Adu) (cut whole : List Delivery), s.pc = .recv →
        adus'.map Adu.shape = adus.map Adu.shape →
        cut.map (fun d => d.bytes.length) = ds.map (fun d => d.bytes.length) →
        (cut.map Delivery.bytes).flatten = stream adus' →
        whole.map Delivery.bytes = adus'.map Adu.bytes → SameService s cut whole := by
  constructor
  · intro hgood s adus' cut whole hpc hshape hlens hflat hwhole
    refine sameService_of_goodCut hpc hwhole (hgood.transfer (map_need_of_shape hshape) ?_ hflat)
    rw [List.map_map, List.map_map]
    exact hlens
  · intro h
    -- the uniform requests of the same shapes, cut at the same places
    have hshape : (adus.map Adu.uniform).map Adu.shape = adus.map Adu.shape := by
      rw [List.map_map]
      exact List.map_congr_left (fun a _ => by simp [Adu.shape])
    have hlen : (ds.map (fun d => d.bytes.length)).sum = (stream (adus.map Adu.uniform)).length := by
      have huniform : (stream (adus.map Adu.uniform)).length = (stream adus).length := by
        simp [stream, List.length_flatten, Function.comp_def]
      rw [huniform, ← hcut, List.length_flatten, List.map_map]
      rfl
    obtain ⟨cut, hlens, hflat⟩ := exists_cut ds hlen
    obtain ⟨whole, hwhole⟩ := exists_deliveries ((adus.map Adu.uniform).map Adu.bytes) (by
      intro c hc
      obtain ⟨a, _, rfl⟩ := List.mem_map.mp hc
      have hlo := a.length_ge
      have hhi := a.length_le
      omega)
    have hserve := (sameService_iff (s := connected) rfl cut whole).mp
      (h connected (adus.map Adu.uniform) cut whole rfl hshape hlens hflat hwhole)
    have hout := congrArg Prod.snd hserve
    rw [hwhole, List.map_map] at hout
    have hne : ∀ c ∈ cut.map Delivery.bytes, c ≠ [] := by
      intro c hc
      obtain ⟨d, _, rfl⟩ := List.mem_map.mp hc
      exact List.ne_nil_of_length_pos d.buf.2.1
    have hflat' : (cut.map Delivery.bytes).flatten = [] ++ uniformStream adus := by
      rw [hflat, stream, List.map_map]; rfl
    obtain ⟨_, hgood⟩ :=
      cut_of_service fragment_nil hne hflat' (hout.trans (serve_uniform connected.regs adus))
    -- a good cut of the uniform requests is a good cut of the given ones
    refine ((hgood rfl).goodCut hne).transfer ?_ ?_ hcut
    · have hneeds := map_need_of_shape hshape.symm
      rwa [List.map_map (g := Adu.bytes) (f := Adu.uniform)] at hneeds
    · rw [List.map_map, List.map_map]
      exact hlens.symm

/-- A request with function code 5. -/
def writeCoil : Adu :=
  ⟨[0, 1, 0, 0, 0, 6, 1, 5, 0, 0, 255, 0], by decide, by decide, by decide, by decide, by decide⟩

/-- It may be cut behind its eighth byte. -/
theorem segmentation_writeCoil :
    SameService connected
      [deliver ⟨writeCoil.bytes.take 8, by decide⟩, deliver ⟨writeCoil.bytes.drop 8, by decide⟩]
      [deliver ⟨writeCoil.bytes, by decide⟩] :=
  (segmentation_iff [writeCoil]
      [deliver ⟨writeCoil.bytes.take 8, by decide⟩,
        deliver ⟨writeCoil.bytes.drop 8, by decide⟩] (by decide)).mp
    (.cons [writeCoil.bytes.drop 8] rfl (by decide) (by decide) .nil)
    connected [writeCoil] _ _ rfl rfl rfl rfl rfl

end Modbus
end Esp32Probes
