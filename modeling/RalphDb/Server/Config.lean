import RalphDb.Command.Execute

/-!
# RalphDb.Server.Config

The configuration the server runs with, and the one `CONFIG GET` reports.

`Config::from_env` and `config_entries` parse the same variables, each in its
own way.  Host and port come out alike for every environment.  The thread
counts do not: `from_env` takes a zero for a zero and raises it to one, while
`parse_threads_env_value` takes it for no value at all and falls back to the
available parallelism (`configEntries_eq_fromEnv_iff`).
-/

namespace RalphDb

open Base

/-- A `server::Config`; the idle timeout is in seconds. -/
structure Config where
  host : String
  port : Nat
  threads : Nat
  idleTimeout : Option Nat

/-- `DEFAULT_IDLE_TIMEOUT_SECS`. -/
def defaultIdleTimeoutSecs : Nat := 300

/-- `Config::from_env`; `idleTimeoutSecs` is `RALPHDB_IDLE_TIMEOUT_SECS`. -/
def Config.fromEnv (env : Environment) (idleTimeoutSecs : Option String) : Config where
  host := ((env.host.map trim).filter (· ≠ "")).getD "127.0.0.1"
  port := (env.port.bind fun value => parseU16 (trim value)).getD 6379
  threads := max ((env.threads.bind fun value => parseUsize (trim value)).getD
    (env.availableParallelism.getD 1)) 1
  idleTimeout := match idleTimeoutSecs.bind fun value => parseI64 (trim value) with
    | some secs =>
      if secs = 0 then none
      else if secs > 0 then some secs.toNatClampNeg
      else some defaultIdleTimeoutSecs
    | none => some defaultIdleTimeoutSecs

/-- The entries say, as text, what the configuration is. -/
structure Reports (entries : List (String × String)) (config : Config) : Prop where
  bind : entries.lookup "server.bind" = some config.host
  port : entries.lookup "server.port" = some (toString config.port)
  threads : entries.lookup "server.threads" = some (toString config.threads)

/-! ## The variables one by one -/

theorem host_eq (value : Option String) :
    (value.bind parseHostEnvValue).getD "127.0.0.1" =
      ((value.map trim).filter (· ≠ "")).getD "127.0.0.1" := by
  cases value with
  | none => rfl
  | some value =>
      by_cases h : trim value = "" <;> simp [parseHostEnvValue, Option.filter, h]

theorem port_eq (value : Option String) :
    (value.bind parsePortEnvValue).getD "6379" =
      toString ((value.bind fun value => parseU16 (trim value)).getD 6379) := by
  have hdefault : toString (6379 : Nat) = "6379" := by decide
  cases value with
  | none => exact hdefault.symm
  | some value =>
      cases h : parseU16 (trim value) with
      | none => simp [parsePortEnvValue, h, hdefault]
      | some port => simp [parsePortEnvValue, h]

/-- The two readings of the thread count differ on a zero alone. -/
theorem threads_eq_iff (value : Option String) {n : Nat} (hn : 1 ≤ n) :
    (value.bind parseThreadsEnvValue).getD n =
        max ((value.bind fun value => parseUsize (trim value)).getD n) 1 ↔
      ¬ ((value.bind fun value => parseUsize (trim value)) = some 0 ∧ n ≠ 1) := by
  cases value with
  | none =>
      simp
      omega
  | some value =>
      cases h : parseUsize (trim value) with
      | none =>
          simp [parseThreadsEnvValue, h]
          omega
      | some threads =>
          by_cases hzero : threads = 0
          · simp [parseThreadsEnvValue, Option.filter, h, hzero]
          · have hpos : 0 < threads := by omega
            simp [parseThreadsEnvValue, Option.filter, h, hzero, hpos]
            omega

theorem defaultThreads_eq (env : Environment) :
    defaultThreads env =
      (env.threads.bind parseThreadsEnvValue).getD (env.availableParallelism.getD 1) := by
  unfold defaultThreads
  cases env.threads.bind parseThreadsEnvValue <;> rfl

/-- Numbers with one text are one number. -/
theorem toString_nat_inj {m n : Nat} : toString m = toString n ↔ m = n := by
  constructor
  · intro h
    have hdigits : Nat.toDigits 10 m = Nat.toDigits 10 n := by
      rw [← toList_toString_nat, ← toList_toString_nat, h]
    have hparse := parseDigits_toDigits m
    rw [hdigits, parseDigits_toDigits] at hparse
    exact (Option.some.inj hparse).symm
  · rintro rfl
    rfl

/-! ## The whole -/

/-- **Exactly when `CONFIG GET` reports the configuration**: unless the thread
count is set to a zero and the machine's own parallelism is not one. -/
theorem configEntries_eq_fromEnv_iff (env : Environment) (idleTimeoutSecs : Option String)
    (hparallelism : ∀ n ∈ env.availableParallelism, 1 ≤ n) :
    Reports (configEntries env) (Config.fromEnv env idleTimeoutSecs) ↔
      ¬ ((env.threads.bind fun value => parseUsize (trim value)) = some 0 ∧
        env.availableParallelism.getD 1 ≠ 1) := by
  have hone : 1 ≤ env.availableParallelism.getD 1 := by
    cases h : env.availableParallelism with
    | none => exact Nat.le_refl 1
    | some n => exact hparallelism n h
  rw [← threads_eq_iff env.threads hone, ← defaultThreads_eq]
  constructor
  · intro h
    exact toString_nat_inj.mp (Option.some.inj h.threads)
  · intro h
    exact ⟨congrArg some (host_eq env.host), congrArg some (port_eq env.port),
      congrArg some (toString_nat_inj.mpr h)⟩

/-- `RALPHDB_THREADS=0` on a machine of four. -/
def zeroThreads : Environment := ⟨none, none, some "0", some 4⟩

/-- The server runs with one thread and reports four. -/
theorem zeroThreads_not_reported :
    (Config.fromEnv zeroThreads none).threads = 1 ∧
      (configEntries zeroThreads).lookup "server.threads" = some "4" ∧
      ¬ ∀ (env : Environment) (idleTimeoutSecs : Option String),
        (∀ n ∈ env.availableParallelism, 1 ≤ n) →
          Reports (configEntries env) (Config.fromEnv env idleTimeoutSecs) := by
  have hrun : (Config.fromEnv zeroThreads none).threads = 1 := by decide
  have hreport : (configEntries zeroThreads).lookup "server.threads" = some "4" := by decide
  refine ⟨hrun, hreport, fun h => ?_⟩
  have hthreads := (h zeroThreads none (by simp [zeroThreads])).threads
  rw [hrun, hreport] at hthreads
  exact absurd hthreads (by decide)

theorem configEntries_eq_fromEnv_iff_four :
    Reports (configEntries ⟨none, some " 06380 ", some "+4", some 8⟩)
        (Config.fromEnv ⟨none, some " 06380 ", some "+4", some 8⟩ none) ↔
      ¬ ((some "+4").bind (fun value => parseUsize (trim value)) = some 0 ∧
        (some 8).getD 1 ≠ 1) :=
  configEntries_eq_fromEnv_iff ⟨none, some " 06380 ", some "+4", some 8⟩ none (by simp)

end RalphDb
