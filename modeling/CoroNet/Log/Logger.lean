import CoroNet.Log.LogStream

namespace CoroNet

/-- The fields of `struct tm` that are printed. -/
structure Tm where
  year : Int
  mon : Int
  mday : Int
  hour : Int
  min : Int
  sec : Int

/-- What the C library tells a logger about the time and the thread. -/
structure LogEnv where
  sec : Int
  nsec : Int
  localtime : Int → Tm
  gettid : Int

/-- The thread-local caches. -/
structure LogCache where
  cachedTid : Int := 0
  tidStr : List UInt8 := []
  lastSecond : Int := 0
  timeStr : List UInt8 := []
  plain : newline ∉ tidStr ∧ newline ∉ timeStr := by decide

/-- A decimal conversion of `printf` with a minimal width. -/
def printf (fill : UInt8) (width : Nat) (value : Int) : List UInt8 :=
  List.replicate (width - (convert value).length) fill ++ convert value

def Tm.text (tm : Tm) : List UInt8 :=
  printf 48 4 tm.year ++ printf 48 2 tm.mon ++ printf 48 2 tm.mday ++ ascii " " ++
    printf 48 2 tm.hour ++ ascii ":" ++ printf 48 2 tm.min ++ ascii ":" ++ printf 48 2 tm.sec

theorem printf_plain {fill : UInt8} (other : fill ≠ newline) (width : Nat) (value : Int) :
    newline ∉ printf fill width value := by
  intro member
  rcases List.mem_append.mp member with filled | digit
  · exact other (List.eq_of_mem_replicate filled).symm
  · exact convert_plain value digit

theorem Tm.text_plain (tm : Tm) : newline ∉ tm.text := by
  have field : ∀ width value, newline ∉ printf 48 width value := printf_plain (by decide)
  have space : newline ∉ ascii " " := by decide
  have colon : newline ∉ ascii ":" := by decide
  simp only [Tm.text, List.mem_append, field, space, colon, or_self, not_false_iff]

namespace LogCache

def cacheTid (c : LogCache) (env : LogEnv) : LogCache :=
  if c.cachedTid = 0 then
    { c with
      cachedTid := env.gettid
      tidStr := (printf 32 5 env.gettid).take 31
      plain := ⟨fun member => printf_plain (by decide) 5 _ (List.mem_of_mem_take member), c.plain.2⟩ }
  else c

/-- The part of `format_timestamp` that keeps the text of the last second. -/
def cacheSecond (c : LogCache) (env : LogEnv) : LogCache :=
  if env.sec ≠ c.lastSecond then
    { c with
      lastSecond := env.sec
      timeStr := (env.localtime env.sec).text.take 31
      plain := ⟨c.plain.1, fun member => Tm.text_plain _ (List.mem_of_mem_take member)⟩ }
  else c

def timestamp (c : LogCache) (env : LogEnv) : List UInt8 :=
  (c.timeStr ++ ascii "." ++ printf 48 6 (env.nsec.tdiv 1000) ++ ascii " ").take 39

end LogCache

/-- `SourceFile`: the name behind the last slash. -/
def sourceFile (path : List UInt8) : List UInt8 := (path.reverse.takeWhile (· ≠ 47)).reverse

structure Logger where
  stream : LogStream
  level : LogLevel
  line : Int
  file : List UInt8
  toAbort : Bool := false

/-- The three constructors: with a level, with a level and a function's name,
and for a failed system call with what `errno` and `strerror_r` say. -/
inductive Logger.Origin
  | level (level : LogLevel)
  | func (level : LogLevel) (func : Option (List UInt8))
  | sys (toAbort : Bool) (e : Int) (es : Option (List UInt8))

namespace Logger

def formatPrefix (c : LogCache) (env : LogEnv) (level : LogLevel) : LogStream × LogCache :=
  let c := c.cacheSecond env
  let stream := LogStream.append {} (c.timestamp env)
  let c := c.cacheTid env
  let stream := (stream.append c.tidStr).append (ascii " ")
  (stream.append ((logLevelName level).take 6), c)

def make (c : LogCache) (env : LogEnv) (path : List UInt8) (line : Int) : Origin → Logger × LogCache
  | .level level =>
    let (stream, c) := formatPrefix c env level
    ({ stream, level, line, file := sourceFile path }, c)
  | .func level func =>
    let (stream, c) := formatPrefix c env level
    let stream :=
      match func with
      | some name => stream.putAll [.cString (some name), .char 32]
      | none => stream
    ({ stream, level, line, file := sourceFile path }, c)
  | .sys toAbort e es =>
    let level := if toAbort then LogLevel.FATAL else LogLevel.ERROR
    let (stream, c) := formatPrefix c env level
    let stream := stream.putAll [.cString (some (ascii "(errno=")), .integer e, .cString (some (ascii ": ")),
      .cString (some (es.getD (ascii "?"))), .cString (some (ascii ") "))]
    ({ stream, level, line, file := sourceFile path, toAbort }, c)

/-- `stream() << v1 << v2 ...`. -/
def putAll (l : Logger) (values : List Value) : Logger := { l with stream := l.stream.putAll values }

/-- What `~Logger` streams. -/
def suffix (l : Logger) : List Value :=
  [.cString (some (ascii " - ")), .cString (some l.file), .char 58, .integer l.line, .char newline]

/-- What `~Logger` hands to `AsyncLogger::append`. -/
def record (l : Logger) : List UInt8 := (l.stream.putAll l.suffix).buffer.data

def aborts (l : Logger) : Bool := l.level = .FATAL || l.toAbort

/-- What stands before the line number where nothing is cut off. -/
def head (l : Logger) : List UInt8 := l.stream.buffer.data ++ ascii " - " ++ strlen l.file ++ ascii ":"

end Logger

def Logger.Origin.Plain : Logger.Origin → Prop
  | .level _ => True
  | .func _ called => ∀ name ∈ called, newline ∉ name
  | .sys _ _ es => ∀ text ∈ es, newline ∉ text

end CoroNet
