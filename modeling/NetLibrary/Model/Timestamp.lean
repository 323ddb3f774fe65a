import NetLibrary.Model.LogRecord
import NetLibrary.Theory.Calendar

/-!
# Times as texts

`util::readableTime` of `util.cc`, and `logv` of `logging.cc` with the time that it puts in front of a record, in a
time zone whose offset is fixed. Calls of `logv` follow one another, and what else a call does is in Model.LogFile.
-/

namespace NetLibrary.Timestamp
open LogRecord

/-- `struct tm`, as `localtime_r` fills it. -/
def localtime (timezone : Int) (t : Int) : Now :=
  let dt := Calendar.dateTime (t - timezone)
  { tm_year := dt.year - 1900
    tm_mon := dt.month - 1
    tm_mday := dt.day
    tm_hour := dt.hour
    tm_min := dt.minute
    tm_sec := (t - timezone) % 60
    tv_usec := 0
    tid := 0 }

def readableTime (timezone : Int) (t : Int) : Bytes :=
  let tm1 := localtime timezone t
  Util.format (format0D 4 (tm1.tm_year + 1900) ++ ['-'.toUInt8] ++ format0D 2 (tm1.tm_mon + 1) ++ ['-'.toUInt8] ++
    format0D 2 tm1.tm_mday ++ [' '.toUInt8] ++ format0D 2 tm1.tm_hour ++ [':'.toUInt8] ++
    format0D 2 tm1.tm_min ++ [':'.toUInt8] ++ format0D 2 tm1.tm_sec)

/-- A call of `logv`, with what `gettimeofday` and the system call for the thread return. -/
structure Entry where
  tv_sec : Int
  tv_usec : Int
  tid : Nat
  call : Call

def Entry.now (timezone : Int) (e : Entry) : Now :=
  { localtime timezone e.tv_sec with tv_usec := e.tv_usec, tid := e.tid }

/-- One call of `logv` after another: what each of them writes, if its level is enabled. -/
def log (m_level : LogLevel) (timezone : Int) : List Entry → Option (List (Option Output))
  | [] => some []
  | e :: es => do
    let out ← logv m_level (e.now timezone) e.call
    let outs ← log m_level timezone es
    return out :: outs

end NetLibrary.Timestamp
