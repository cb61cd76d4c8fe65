/-!
# Durations

A span of time as it is shown to a reader, by the two greatest units that matter.
-/

namespace RegularLanguages

/-- A span of time. -/
structure Duration where
  seconds : Nat
  nanoseconds : Nat

namespace Duration

/-- The whole microseconds. -/
def micros (d : Duration) : Nat := d.seconds * 1000000 + d.nanoseconds / 1000

/-- A duration of a minute and more is shown in minutes and seconds, one of a second and more in
seconds and milliseconds, one of a millisecond and more in milliseconds and microseconds, and any
other in microseconds. -/
def toText (d : Duration) : String :=
  let us := d.micros
  let ms := us / 1000
  let s := ms / 1000
  let m := s / 60
  if m > 0 then toString m ++ "m " ++ toString (s % 60) ++ "s"
  else if s > 0 then toString s ++ "s " ++ toString (ms % 1000) ++ "ms"
  else if ms > 0 then toString ms ++ "ms " ++ toString (us % 1000) ++ "us"
  else toString us ++ "us"

end Duration

end RegularLanguages
