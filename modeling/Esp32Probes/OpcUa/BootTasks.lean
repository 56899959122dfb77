import Esp32Probes.OpcUa.ServerTask

/-!
# `OpcUa.BootTasks` — app_main, the SD logger and the server task, interleaved

After `esp_eth_start` three tasks share `sd_mounted`, `sd_status` and `sd_append_count`: `app_main` mounts the
card and appends the first line, `sd_logger_task` (created after that) appends the others, and
`opcua_server_task`, started by a GOT_IP event at any time, publishes the two numbers. A step of the machine
is one access of one task to these variables, or one call of it; the events choose the task and give the
results of its calls.

`appendSteps_eq` connects the steps of an append to the function `appendSdLogLine`.
-/

namespace Esp32Probes
namespace OpcUa
namespace Boot

open Machine

/-! ## One append, access by access -/

/-- The statements of `append_sd_log_line`. -/
inductive AppendPc
  | check
  | fopen
  | openFailed
  | write
  | setOk
  | count
  deriving DecidableEq

/-- One statement of `append_sd_log_line`: the variables after it, and the next statement unless the function
    returns. The increment of an `int32_t` at its maximum is undefined. -/
def appendStep (sd : SdGlobals) (pc : AppendPc) (opened : Bool) : Option (SdGlobals × Option AppendPc) :=
  match pc with
  | .check => some (sd, if sd.sdMounted = false then none else some .fopen)
  | .fopen => some (sd, if opened = false then some .openFailed else some .write)
  | .openFailed => some ({ sd with sdStatus := sdStatusAppendFailed }, none)
  | .write => some (sd, some .setOk)
  | .setOk => some ({ sd with sdStatus := sdStatusOk }, some .count)
  | .count =>
    if sd.sdAppendCount = Int32.maxValue then none
    else some ({ sd with sdAppendCount := sd.sdAppendCount + 1 }, none)

/-- The statements from `pc` on, with no other task in between, lead to these variables. -/
inductive AppendSteps (opened : Bool) : SdGlobals → AppendPc → SdGlobals → Prop
  | ret {sd sd' : SdGlobals} {pc : AppendPc} (h : appendStep sd pc opened = some (sd', none)) :
      AppendSteps opened sd pc sd'
  | next {sd sd' sd'' : SdGlobals} {pc pc' : AppendPc} (h : appendStep sd pc opened = some (sd', some pc'))
      (rest : AppendSteps opened sd' pc' sd'') : AppendSteps opened sd pc sd''

/-- What is left to do at each statement, as a function on the variables. -/
def appendRest (sd : SdGlobals) (opened : Bool) : AppendPc → SdGlobals
  | .check =>
    if sd.sdMounted = false then sd
    else if opened = false then { sd with sdStatus := sdStatusAppendFailed }
    else { sd with sdStatus := sdStatusOk, sdAppendCount := sd.sdAppendCount + 1 }
  | .fopen =>
    if opened = false then { sd with sdStatus := sdStatusAppendFailed }
    else { sd with sdStatus := sdStatusOk, sdAppendCount := sd.sdAppendCount + 1 }
  | .openFailed => { sd with sdStatus := sdStatusAppendFailed }
  | .write | .setOk => { sd with sdStatus := sdStatusOk, sdAppendCount := sd.sdAppendCount + 1 }
  | .count => { sd with sdAppendCount := sd.sdAppendCount + 1 }

theorem appendRest_step {sd sd' : SdGlobals} {pc : AppendPc} {opened : Bool} {next : Option AppendPc}
    (h : appendStep sd pc opened = some (sd', next)) :
    appendRest sd opened pc = (next.map (appendRest sd' opened)).getD sd' := by
  cases pc with
  | check =>
      cases h
      by_cases hm : sd.sdMounted = false <;> simp [appendRest, hm]
  | fopen =>
      cases h
      by_cases ho : opened = false <;> simp [appendRest, ho]
  | openFailed => cases h; rfl
  | write => cases h; rfl
  | setOk => cases h; rfl
  | count =>
      simp only [appendStep] at h
      split_ifs at h
      cases h
      rfl

/-- **An append without interruption is `append_sd_log_line`.** -/
theorem appendSteps_eq {c : FileCalls} {sd sd' : SdGlobals} (h : AppendSteps c.fopen sd .check sd') :
    sd' = (appendSdLogLine sd c).1 := by
  have hrest : ∀ {sd pc sd'}, AppendSteps c.fopen sd pc sd' → sd' = appendRest sd c.fopen pc := by
    intro sd pc sd' h
    induction h with
    | ret h => exact (appendRest_step h).symm
    | next h _ ih => rw [ih]; exact (appendRest_step h).symm
  rw [hrest h, appendRest, appendSdLogLine]
  split_ifs <;> rfl

/-- A statement of an append increments the count, if it is not at its maximum, or leaves it alone. -/
theorem appendStep_count {sd sd' : SdGlobals} {pc : AppendPc} {opened : Bool} {next : Option AppendPc}
    (h : appendStep sd pc opened = some (sd', next)) :
    (pc = .count ∧ sd.sdAppendCount ≠ Int32.maxValue ∧ sd'.sdAppendCount = sd.sdAppendCount + 1) ∨
      (pc ≠ .count ∧ sd'.sdAppendCount = sd.sdAppendCount) := by
  cases pc with
  | count =>
      simp only [appendStep] at h
      split_ifs at h with hmax
      cases h
      exact Or.inl ⟨rfl, hmax, rfl⟩
  | check => cases h; exact Or.inr ⟨by decide, rfl⟩
  | fopen => cases h; exact Or.inr ⟨by decide, rfl⟩
  | openFailed => cases h; exact Or.inr ⟨by decide, rfl⟩
  | write => cases h; exact Or.inr ⟨by decide, rfl⟩
  | setOk => cases h; exact Or.inr ⟨by decide, rfl⟩

/-! ## The tasks -/

/-- The statements of `app_main` from `sd_logging_probe` on. -/
inductive MainPc
  | bus
  | busFailed
  | mount
  | mountFailed
  | mounted
  | mountOk
  | append (pc : AppendPc)
  | createLogger
  | idle
  deriving DecidableEq

/-- `sd_logger_task`: not created yet, inside `append_sd_log_line`, or in `vTaskDelay`. -/
inductive LoggerPc
  | absent
  | append (pc : AppendPc)
  | delay
  deriving DecidableEq

/-- `opcua_server_task`: not started yet, adding the two nodes that read the shared variables, or in its
    loop. A server that fails to start serves no client and needs no state here. -/
inductive ServerPhase
  | absent
  | addStatus
  | addCount (sdStatus : Int32)
  | serving (s : Server)

/-- What the calls of `app_main` return. -/
structure Calls where
  bus     : EspErr
  mount   : EspErr
  opened  : Bool
  created : Bool

/-- One step of `app_main`: the variables, its next statement, and whether it creates the logger task. -/
def mainStep (sd : SdGlobals) (pc : MainPc) (c : Calls) : Option (SdGlobals × MainPc × Bool) :=
  match pc with
  | .bus => some (sd, if c.bus ≠ espOk ∧ c.bus ≠ espErrInvalidState then .busFailed else .mount, false)
  | .busFailed => some ({ sd with sdStatus := sdStatusBusInitFailed }, .createLogger, false)
  | .mount => some (sd, if c.mount ≠ espOk then .mountFailed else .mounted, false)
  | .mountFailed => some ({ sd with sdStatus := sdStatusMountFailed }, .createLogger, false)
  | .mounted => some ({ sd with sdMounted := true }, .mountOk, false)
  | .mountOk => some ({ sd with sdStatus := sdStatusOk }, .append .check, false)
  | .append pc =>
    match appendStep sd pc c.opened with
    | none => none
    | some (sd', next) => some (sd', match next with | some pc' => .append pc' | none => .createLogger, false)
  | .createLogger => some (sd, .idle, sd.sdMounted && c.created)
  | .idle => some (sd, .idle, false)

/-- One step of `sd_logger_task`. -/
def loggerStep (sd : SdGlobals) (pc : LoggerPc) (opened : Bool) : Option (SdGlobals × LoggerPc) :=
  match pc with
  | .absent => none
  | .append pc =>
    match appendStep sd pc opened with
    | none => none
    | some (sd', next) => some (sd', match next with | some pc' => .append pc' | none => .delay)
  | .delay => some (sd, .append .check)

/-- The three tasks. `appends` counts the executed `sd_append_count++`, without a bound. -/
structure System where
  sd      : SdGlobals
  main    : MainPc
  logger  : LoggerPc
  server  : ServerPhase
  appends : Nat

/-- After `esp_eth_start`. -/
def init : System := ⟨.init, .bus, .absent, .absent, 0⟩

/-- Which task moves, with the results of its calls. -/
inductive Event
  | main (c : Calls)
  | logger (opened : Bool)
  | gotIp
  | addNode
  | server (e : OpcUa.Event)

/-- What the loop publishes is read from the shared variables at that moment. -/
def withSd (sd : SdGlobals) : OpcUa.Event → OpcUa.Event
  | .publish _ ret => .publish sd ret
  | e => e

/-- One step of one of the three tasks. -/
def step (lib : Open62541) (s : System) (e : Event) : Option (System × List Response) :=
  match e with
  | .main c =>
    match mainStep s.sd s.main c with
    | none => none
    | some (sd, main, create) =>
      some ({ s with
        sd := sd
        main := main
        logger := if create = true then .append .check else s.logger
        appends := s.appends + (if s.main = .append .count then 1 else 0) }, [])
  | .logger opened =>
    match loggerStep s.sd s.logger opened with
    | none => none
    | some (sd, logger) =>
      some ({ s with
        sd := sd
        logger := logger
        appends := s.appends + (if s.logger = .append .count then 1 else 0) }, [])
  | .gotIp =>
    match s.server with
    | .absent => some ({ s with server := .addStatus }, [])
    | _ => some (s, [])
  | .addNode =>
    match s.server with
    | .addStatus => some ({ s with server := .addCount s.sd.sdStatus }, [])
    | .addCount status =>
      some ({ s with server := .serving (.init { s.sd with sdStatus := status }) }, [])
    | _ => none
  | .server e =>
    match s.server with
    | .serving srv =>
      match OpcUa.step lib srv (withSd s.sd e) with
      | none => none
      | some (srv', responses) => some ({ s with server := .serving srv' }, responses)
    | _ => none

/-- The steps, one constructor a branch of the machine. -/
inductive Stepped (lib : Open62541) (s : System) : Event → System → List Response → Prop
  | main (c : Calls) {sd : SdGlobals} {main : MainPc} {create : Bool}
      (hm : mainStep s.sd s.main c = some (sd, main, create)) : Stepped lib s (.main c)
        { s with
          sd := sd
          main := main
          logger := if create = true then .append .check else s.logger
          appends := s.appends + (if s.main = .append .count then 1 else 0) } []
  | logger (opened : Bool) {sd : SdGlobals} {logger : LoggerPc}
      (hl : loggerStep s.sd s.logger opened = some (sd, logger)) : Stepped lib s (.logger opened)
        { s with
          sd := sd
          logger := logger
          appends := s.appends + (if s.logger = .append .count then 1 else 0) } []
  | gotIp (hserver : s.server = .absent) : Stepped lib s .gotIp { s with server := .addStatus } []
  | gotIpAgain : Stepped lib s .gotIp s []
  | addStatus (hserver : s.server = .addStatus) :
      Stepped lib s .addNode { s with server := .addCount s.sd.sdStatus } []
  | addCount {status : Int32} (hserver : s.server = .addCount status) :
      Stepped lib s .addNode { s with server := .serving (.init { s.sd with sdStatus := status }) } []
  | server (e : OpcUa.Event) {srv srv' : Server} {out : List Response} (hserver : s.server = .serving srv)
      (hs : OpcUa.step lib srv (withSd s.sd e) = some (srv', out)) :
      Stepped lib s (.server e) { s with server := .serving srv' } out

theorem stepped_of_step {lib : Open62541} {s s' : System} {e : Event} {out : List Response}
    (h : step lib s e = some (s', out)) : Stepped lib s e s' out := by
  cases e with
  | main c =>
      simp only [step] at h
      cases hm : mainStep s.sd s.main c with
      | none => rw [hm] at h; cases h
      | some r => rw [hm] at h; cases h; exact .main c hm
  | logger opened =>
      simp only [step] at h
      cases hl : loggerStep s.sd s.logger opened with
      | none => rw [hl] at h; cases h
      | some r => rw [hl] at h; cases h; exact .logger opened hl
  | gotIp =>
      simp only [step] at h
      cases hserver : s.server with
      | absent => rw [hserver] at h; cases h; exact .gotIp hserver
      | _ => rw [hserver] at h; cases h; exact .gotIpAgain
  | addNode =>
      simp only [step] at h
      cases hserver : s.server with
      | addStatus => rw [hserver] at h; cases h; exact .addStatus hserver
      | addCount status => rw [hserver] at h; cases h; exact .addCount hserver
      | _ => rw [hserver] at h; cases h
  | server e =>
      simp only [step] at h
      cases hserver : s.server with
      | serving srv =>
          rw [hserver] at h
          cases hs : OpcUa.step lib srv (withSd s.sd e) with
          | none => simp only [hs] at h; cases h
          | some r => simp only [hs] at h; cases h; exact .server e hserver hs
      | _ => rw [hserver] at h; cases h

/-- The steps by what they do to the server task: nothing, a part of its start, its entry into the loop, or a
    statement of the loop. -/
inductive ServerStep (lib : Open62541) (s : System) (e : Event) (out : List Response) (phase : ServerPhase) :
    Prop
  | same (h : phase = s.server)
  | starting (hserver : ∀ srv, s.server ≠ .serving srv) (h : ∀ srv, phase ≠ .serving srv)
  | enter (status : Int32) (hserver : ∀ srv, s.server ≠ .serving srv)
      (h : phase = .serving (.init { s.sd with sdStatus := status }))
  | loop (e' : OpcUa.Event) {srv srv' : Server} (he : e = .server e') (hserver : s.server = .serving srv)
      (hs : OpcUa.step lib srv (withSd s.sd e') = some (srv', out)) (h : phase = .serving srv')

theorem serverStep_of_step {lib : Open62541} {s s' : System} {e : Event} {out : List Response}
    (h : step lib s e = some (s', out)) : ServerStep lib s e out s'.server := by
  cases stepped_of_step h with
  | main c hm => exact .same rfl
  | logger opened hl => exact .same rfl
  | gotIp hserver => exact .starting (by simp [hserver]) (by simp)
  | gotIpAgain => exact .same rfl
  | addStatus hserver => exact .starting (by simp [hserver]) (by simp)
  | @addCount status hserver => exact .enter status (by simp [hserver]) rfl
  | server e hserver hs => exact .loop e rfl hserver hs rfl

/-- A statement that publishes what the shared variables hold was one that publishes. -/
theorem withSd_eq_publish {sd sd' : SdGlobals} {e : OpcUa.Event} {ret : StatusCode}
    (h : withSd sd e = .publish sd' ret) : sd' = sd ∧ ∃ sd₀, e = .publish sd₀ ret := by
  cases e with
  | publish sd₀ ret₀ => cases h; exact ⟨rfl, sd₀, rfl⟩
  | _ => cases h

theorem withSd_writesSucceed {sd : SdGlobals} {e : OpcUa.Event} (h : e.WritesSucceed) :
    (withSd sd e).WritesSucceed := by
  cases e <;> exact h

end Boot
end OpcUa
end Esp32Probes
