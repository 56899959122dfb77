import Mathlib.Algebra.Ring.Nat
import Esp32Probes.Lib.Machine

/-!
# `OpcUa.SdLog` — mounting the SD card and appending to its log

`mount_sd_card`, `append_sd_log_line` and `sd_logging_probe` as functions on the three variables that the SD
code shares with the server task. What the library calls return is an argument (`FileCalls`).

The status is documented as 1 when append logging worked and -3 when an append's open or write failed. The
code looks at the result of `fopen` only: `truthful_iff` says that status, count and return value are
right exactly as long as no line is lost after its file was opened.
-/

namespace Esp32Probes
namespace OpcUa

open Machine

/-! ## Variables and status values -/

/-- The variables that the SD code shares with the server task. -/
structure SdGlobals where
  sdMounted     : Bool
  sdStatus      : Int32
  sdAppendCount : Int32
  deriving DecidableEq

def sdStatusNotStarted : Int32 := 0
def sdStatusOk : Int32 := 1
def sdStatusBusInitFailed : Int32 := -1
def sdStatusMountFailed : Int32 := -2
def sdStatusAppendFailed : Int32 := -3

/-- The values the variables are initialised with. -/
def SdGlobals.init : SdGlobals := ⟨false, sdStatusNotStarted, 0⟩

/-! ## The functions -/

/-- An `esp_err_t`. -/
abbrev EspErr := Int32

def espOk : EspErr := 0
def espErrInvalidState : EspErr := 0x103

/-- `mount_sd_card`, given what `spi_bus_initialize` and `esp_vfs_fat_sdspi_mount` return. -/
def mountSdCard (g : SdGlobals) (bus mount : EspErr) : SdGlobals × Bool :=
  if bus ≠ espOk ∧ bus ≠ espErrInvalidState then ({ g with sdStatus := sdStatusBusInitFailed }, false)
  else if mount ≠ espOk then ({ g with sdStatus := sdStatusMountFailed }, false)
  else ({ g with sdMounted := true, sdStatus := sdStatusOk }, true)

/-- The line that is appended. -/
def logLine (time : Int64) (internalFree psramFree : UInt32) : String :=
  toString time.toInt ++ ",internal_heap," ++ toString internalFree.toNat ++ ",psram," ++
    toString psramFree.toNat ++ "\n"

/-- What the calls of one `append_sd_log_line` return: whether `fopen` gives a file, the clock and heap
    readings in the line, the number of characters `fprintf` has written (negative on an error), and the
    result of `fclose` (0 when everything is flushed). -/
structure FileCalls where
  fopen        : Bool
  time         : Int64
  internalFree : UInt32
  psramFree    : UInt32
  fprintf      : Int
  fclose       : Int

/-- The whole line has been written and flushed. -/
def FileCalls.Complete (c : FileCalls) : Prop :=
  c.fprintf = (logLine c.time c.internalFree c.psramFree).length ∧ c.fclose = 0

instance (c : FileCalls) : Decidable c.Complete := inferInstanceAs (Decidable (_ ∧ _))

/-- `append_sd_log_line`. The results of `fprintf` and `fclose` are not looked at. -/
def appendSdLogLine (g : SdGlobals) (c : FileCalls) : SdGlobals × Bool :=
  if g.sdMounted = false then (g, false)
  else if c.fopen = false then ({ g with sdStatus := sdStatusAppendFailed }, false)
  else ({ g with sdStatus := sdStatusOk, sdAppendCount := g.sdAppendCount + 1 }, true)

/-- The calls that follow a mount: the first one by `sd_logging_probe`, the others by `sd_logger_task`. -/
def logStep (g : SdGlobals) (c : FileCalls) : Option (SdGlobals × Bool) := some (appendSdLogLine g c)

/-! ## What the documentation promises -/

/-- The call has appended its line. -/
def FileCalls.Succeeds (c : FileCalls) : Prop := c.fopen = true ∧ c.Complete

instance (c : FileCalls) : Decidable c.Succeeds := inferInstanceAs (Decidable (_ ∧ _))

/-- After a call the count is the number of lines appended, the status tells whether the call has appended
    one, and so does the returned value. -/
structure Truthful (past : List FileCalls) (c : FileCalls) (after : SdGlobals × Bool) : Prop where
  count : after.1.sdAppendCount.toInt = (past ++ [c]).countP (fun c => c.Succeeds)
  status : after.1.sdStatus = if c.Succeeds then sdStatusOk else sdStatusAppendFailed
  ret : after.2 = true ↔ c.Succeeds

/-! ## What the code does -/

/-- A mount that succeeds sets `sd_status` to 1. -/
theorem mountSdCard_mounted {g g' : SdGlobals} {bus mount : EspErr}
    (h : mountSdCard g bus mount = (g', true)) :
    g' = { g with sdMounted := true, sdStatus := sdStatusOk } := by
  unfold mountSdCard at h
  split at h
  · cases h
  · split at h
    · cases h
    · cases h; rfl

/-- An append whose `fopen` fails is not counted. -/
theorem appendSdLogLine_closed {g : SdGlobals} {c : FileCalls} (hm : g.sdMounted = true)
    (hopen : c.fopen = false) :
    appendSdLogLine g c = ({ g with sdStatus := sdStatusAppendFailed }, false) := by
  simp [appendSdLogLine, hm, hopen]

/-- An append whose `fopen` succeeds is counted, whatever is written. -/
theorem appendSdLogLine_opened {g : SdGlobals} {c : FileCalls} (hm : g.sdMounted = true)
    (hopen : c.fopen = true) :
    appendSdLogLine g c = ({ g with sdStatus := sdStatusOk, sdAppendCount := g.sdAppendCount + 1 },
      true) := by
  simp [appendSdLogLine, hm, hopen]

/-- A card that is mounted stays mounted, and the count is the number of files opened. -/
structure Logging (es : List FileCalls) (g : SdGlobals) : Prop where
  mounted : g.sdMounted = true
  count : g.sdAppendCount = Int32.ofNat (es.countP (fun c => c.fopen))

theorem Logging.step {pre : List FileCalls} {g : SdGlobals} (h : Logging pre g) (c : FileCalls) :
    Logging (pre ++ [c]) (appendSdLogLine g c).1 := by
  have hcount := h.count
  cases hopen : c.fopen with
  | false =>
      rw [appendSdLogLine_closed h.mounted hopen]
      exact ⟨h.mounted, by simp [List.countP_append, hopen, hcount]⟩
  | true =>
      rw [appendSdLogLine_opened h.mounted hopen]
      exact ⟨h.mounted, by simp [List.countP_append, hopen, hcount]⟩

/-- **A run of appends** after a mount: the card stays mounted and the files opened are counted. -/
theorem logging_run {g t : SdGlobals} {bus mount : EspErr} (hmount : mountSdCard .init bus mount = (g, true))
    {es : List FileCalls} {os : List Bool} (hrun : run logStep g es = some (t, os)) : Logging es t := by
  have hinit : Logging [] g := by
    rw [mountSdCard_mounted hmount]
    exact ⟨rfl, rfl⟩
  refine run_invariant (I := fun pre _ g => Logging pre g) hinit ?_ hrun
  intro pre _ m c m' ret h hs
  obtain ⟨rfl, _⟩ := Prod.mk.inj (Option.some.inj hs)
  exact h.step c

/-- **When the SD status can be believed.** In a run of appends after a successful mount, every call is
    truthful if and only if every call that opens its file also gets its whole line written and flushed. -/
theorem truthful_iff {g : SdGlobals} {bus mount : EspErr} (hmount : mountSdCard .init bus mount = (g, true))
    {es : List FileCalls} (hlt : es.length < 2 ^ 31) :
    Along logStep g es (fun past _ g c => Truthful past c (appendSdLogLine g c)) ↔
      ∀ c ∈ es, c.fopen = true → c.Complete := by
  constructor
  · intro h c hc hopen
    obtain ⟨pre, post, rfl⟩ := List.append_of_mem hc
    have htot : ∀ g c, (logStep g c).isSome := fun _ _ => rfl
    obtain ⟨m, os, hrun⟩ := run_total htot g pre
    have hret := (h pre c post m os rfl hrun).ret
    rw [appendSdLogLine_opened (logging_run hmount hrun).mounted hopen] at hret
    exact (hret.mp rfl).2
  · rintro h pre c post m os rfl hrun
    have hlog := logging_run hmount hrun
    -- so far opening a file and appending the line have been the same
    have hsame : ∀ c' ∈ pre ++ [c], c'.fopen = true ↔ c'.Succeeds := by
      intro c' hc'
      have hmem : c' ∈ pre ++ c :: post := by
        rw [List.append_cons]
        exact List.mem_append_left _ hc'
      exact ⟨fun hopen => ⟨hopen, h c' hmem hopen⟩, fun hs => hs.1⟩
    have hcount : (pre ++ [c]).countP (fun c => c.Succeeds) = (pre ++ [c]).countP (fun c => c.fopen) :=
      List.countP_congr (fun c' hc' => by simpa using (hsame c' hc').symm)
    have hle := List.countP_le_length (p := fun c : FileCalls => c.fopen) (l := pre ++ [c])
    rw [List.length_append, List.length_singleton] at hle
    rw [List.length_append, List.length_cons] at hlt
    have hint : (appendSdLogLine m c).1.sdAppendCount.toInt = (pre ++ [c]).countP (fun c => c.Succeeds) := by
      rw [(hlog.step c).count, Int32.toInt_ofNat_of_lt (by omega), hcount]
    have hc := hsame c (by simp)
    cases hopen : c.fopen with
    | false =>
        have hno : ¬ c.Succeeds := fun hs => by rw [hs.1] at hopen; cases hopen
        refine ⟨hint, ?_, ?_⟩
        · rw [appendSdLogLine_closed hlog.mounted hopen, if_neg hno]
        · rw [appendSdLogLine_closed hlog.mounted hopen]
          exact iff_of_false Bool.false_ne_true hno
    | true =>
        have hs : c.Succeeds := hc.mp hopen
        refine ⟨hint, ?_, ?_⟩
        · rw [appendSdLogLine_opened hlog.mounted hopen, if_pos hs]
        · rw [appendSdLogLine_opened hlog.mounted hopen]
          exact iff_of_true rfl hs

/-- A call in which everything succeeds; its line has 26 characters. -/
def goodCalls : FileCalls := ⟨true, 0, 0, 0, 26, 0⟩

/-- A call whose file is opened, but whose line is lost when the file is closed. -/
def lostCalls : FileCalls := { goodCalls with fclose := -1 }

/-- One good append. -/
theorem truthful_good : Truthful [] goodCalls (appendSdLogLine ⟨true, sdStatusOk, 0⟩ goodCalls) := by
  have hmount : mountSdCard .init espOk espOk = (⟨true, sdStatusOk, 0⟩, true) := rfl
  have hlt : [goodCalls].length < 2 ^ 31 := by decide
  have hcomplete : ∀ c ∈ [goodCalls], c.fopen = true → c.Complete := by decide
  exact (truthful_iff hmount hlt).mpr hcomplete [] goodCalls [] _ _ rfl rfl

/-- **A lost line counts.** The close fails, and still the call returns true, the line is counted and the
    status says that logging works. -/
theorem lost_line_counts :
    mountSdCard .init espOk espOk = (⟨true, sdStatusOk, 0⟩, true) ∧
      appendSdLogLine ⟨true, sdStatusOk, 0⟩ lostCalls = (⟨true, sdStatusOk, 1⟩, true) ∧
      ¬ Truthful [] lostCalls (appendSdLogLine ⟨true, sdStatusOk, 0⟩ lostCalls) := by
  refine ⟨rfl, rfl, fun h => ?_⟩
  have hs : lostCalls.Succeeds := h.ret.mp rfl
  exact absurd hs (by decide)

end OpcUa
end Esp32Probes
