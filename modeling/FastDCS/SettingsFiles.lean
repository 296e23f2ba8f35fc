import FastDCS.ByteSizes
import FastDCS.ConfigContents

/-!
`LoadConfig` of `tracker_main.cc`: the settings of a process, from the text of its file.
-/

namespace FastDCS.SettingsFiles

open FastDCS.Strings
open FastDCS.ConfigFile
open FastDCS.ConfigGrammar
open FastDCS.ConfigContents
open FastDCS.MachineIntegers
open FastDCS.ByteSizes (strtol clampSocketBuffSize loadLogMaxSize loadSocketBuffSize)

/-- `settings_s` with its default values. A pointer is `none` where it is NULL. The path of the file
and the debug log, which is never set, are left out. -/
structure Settings extends ByteSizes.Settings where
  runAsDaemon : Bool := false
  maxCoreFile : Bool := false
  infoLog : Option Str := none
  warnLog : Option Str := none
  errLog : Option Str := none
  runByUser : Option Str := none
  pidFile : Option Str := none
  classFactory : Option Str := none
  trackerGroup : Option Str := none
  trackerServer : Option Str := none
  mysqlDatabase : Option Str := none
  mysqlHost : Option Str := none
  mysqlUser : Option Str := none
  mysqlPasswd : Option Str := none
  maxConnections : Int := 256
  computingThreads : Int := 1
  preloadTasks : Int := 100
  taskDuplicate : Int := 10
  connectTimeout : Int := 30
  networkTimeout : Int := 30
  heartBeatInterval : Int := 30
  statReportInterval : Int := 30
  leaseTimeout : Int := 10
  mysqlPort : Int := 3306
deriving DecidableEq

/-- How the process ends in `LoadConfig`: the file is not parsed, a string is made of a NULL
pointer, or a size is not stored. -/
inductive Fault where
  | parsing (fault : ConfigFile.Fault)
  | nullString
  | size (fault : ByteSizes.Fault)
deriving DecidableEq

/-- `atoi`. -/
def atoi (text : Str) : Int := narrow 31 (strtol text).1

section LoadConfig

-- what `config_get` finds for each key
variable (config : Str → Option Str)

def flag (key : Str) : Except Fault Bool :=
  match config key with
  | some text => .ok (decide (text = "true".toList))
  | none => .error .nullString

def number (key : Str) (default : Int) : Int :=
  match config key with
  | some text => atoi text
  | none => default

def setTexts (settings : Settings) : Settings :=
  { settings with
    infoLog := config "info_log".toList
    warnLog := config "warn_log".toList
    errLog := config "err_log".toList
    runByUser := config "run_by_user".toList
    pidFile := config "pid_file".toList
    classFactory := config "class_factory".toList
    trackerGroup := config "tracker_group".toList
    trackerServer := config "tracker_server".toList
    mysqlDatabase := config "mysql_database".toList
    mysqlHost := config "mysql_host".toList
    mysqlUser := config "mysql_user".toList
    mysqlPasswd := config "mysql_passwd".toList }

def setSizes (settings : Settings) : Except Fault Settings :=
  match ByteSizes.loadConfig config settings.toSettings with
  | .ok sizes => .ok { settings with toSettings := sizes }
  | .error fault => .error (.size fault)

def setNumbers (settings : Settings) : Settings :=
  { settings with
    maxConnections := number config "max_connections".toList settings.maxConnections
    taskDuplicate := number config "task_duplicate".toList settings.taskDuplicate
    preloadTasks := number config "preload_tasks".toList settings.preloadTasks
    computingThreads := number config "computing_threads".toList settings.computingThreads
    connectTimeout := number config "connect_timeout".toList settings.connectTimeout
    networkTimeout := number config "network_timeout".toList settings.networkTimeout
    heartBeatInterval := number config "heart_beat_interval".toList settings.heartBeatInterval
    statReportInterval := number config "stat_report_interval".toList settings.statReportInterval
    leaseTimeout := number config "lease_timeout".toList settings.leaseTimeout
    mysqlPort := number config "mysql_port".toList settings.mysqlPort }

/-- `LoadConfig` behind `config_parse`, without the loop that prints the pairs. -/
def loadSettings (settings : Settings) : Except Fault Settings := do
  let runAsDaemon ← flag config "run_by_daemon".toList
  let maxCoreFile ← flag config "max_core_file".toList
  let flagged := { settings with runAsDaemon := runAsDaemon, maxCoreFile := maxCoreFile }
  let sized ← setSizes config (setTexts config flagged)
  return setNumbers config sized

end LoadConfig

def loadConfig (mem : Memory) (configFile : Str) (file : Option (List (List Char)))
    (settings : Settings) : Except Fault (Bool × Settings) :=
  if configFile = [] then .ok (false, settings)
  else
    match configParse mem file with
    | .ok table => (loadSettings (configGet table) settings).map fun loaded => (true, loaded)
    | .error fault => .error (.parsing fault)

structure NumbersFit (settings : Settings) : Prop where
  maxConnections : Fits 31 settings.maxConnections
  computingThreads : Fits 31 settings.computingThreads
  preloadTasks : Fits 31 settings.preloadTasks
  taskDuplicate : Fits 31 settings.taskDuplicate
  connectTimeout : Fits 31 settings.connectTimeout
  networkTimeout : Fits 31 settings.networkTimeout
  heartBeatInterval : Fits 31 settings.heartBeatInterval
  statReportInterval : Fits 31 settings.statReportInterval
  leaseTimeout : Fits 31 settings.leaseTimeout
  mysqlPort : Fits 31 settings.mysqlPort

/-- The settings with the two flags and the texts. -/
def flagged (config : Str → Option Str) (runAsDaemon maxCoreFile : Str) : Settings :=
  setTexts config
    { runAsDaemon := decide (runAsDaemon = "true".toList)
      maxCoreFile := decide (maxCoreFile = "true".toList) }

/-- The settings from the texts of the two flags and from the sizes. -/
def settled (config : Str → Option Str) (runAsDaemon maxCoreFile : Str)
    (sizes : ByteSizes.Settings) : Settings :=
  setNumbers config { flagged config runAsDaemon maxCoreFile with toSettings := sizes }

/-- The settings of a process that starts: both flags are configured, the sizes are taken. -/
structure Loaded (config : Str → Option Str) (settings : Settings) : Prop where
  settled : ∃ runAsDaemon maxCoreFile sizes,
    config "run_by_daemon".toList = some runAsDaemon ∧
      config "max_core_file".toList = some maxCoreFile ∧
        ByteSizes.loadConfig config {} = .ok sizes ∧
          settings = settled config runAsDaemon maxCoreFile sizes
  socketBuffSize : 8 * 1024 ≤ settings.socketBuffSize ∧ settings.socketBuffSize ≤ 512 * 1024
  numbers : NumbersFit settings

section Loading

variable {config : Str → Option Str} {settings loaded : Settings}

theorem fits_number {key : Str} {default : Int} (h : Fits 31 default) :
    Fits 31 (number config key default) := by
  rw [number]
  cases config key with
  | none => exact h
  | some text => exact fits_narrow 31 _

theorem NumbersFit.setTexts (h : NumbersFit settings) : NumbersFit (setTexts config settings) :=
  ⟨h.maxConnections, h.computingThreads, h.preloadTasks, h.taskDuplicate, h.connectTimeout,
    h.networkTimeout, h.heartBeatInterval, h.statReportInterval, h.leaseTimeout, h.mysqlPort⟩

theorem NumbersFit.setNumbers (h : NumbersFit settings) :
    NumbersFit (setNumbers config settings) where
  maxConnections := fits_number h.maxConnections
  computingThreads := fits_number h.computingThreads
  preloadTasks := fits_number h.preloadTasks
  taskDuplicate := fits_number h.taskDuplicate
  connectTimeout := fits_number h.connectTimeout
  networkTimeout := fits_number h.networkTimeout
  heartBeatInterval := fits_number h.heartBeatInterval
  statReportInterval := fits_number h.statReportInterval
  leaseTimeout := fits_number h.leaseTimeout
  mysqlPort := fits_number h.mysqlPort

end Loading

end FastDCS.SettingsFiles
