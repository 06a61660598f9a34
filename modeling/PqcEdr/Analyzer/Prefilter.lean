/-
# What the prefilter shares with the correlator

`analyzer/src/prefilter.cpp` and `analyzer/src/alert.h`: the severity scale, the basename of a
path and the private address ranges.
-/
import PqcEdr.Printf

namespace PqcEdr.Analyzer

/-- `enum class Severity`. -/
inductive Severity where
  | Info
  | Low
  | Medium
  | High
  | Critical
  deriving DecidableEq, Repr

/-- `basename_of`: what follows the last `/`, or the whole path. -/
def basenameOf (path : Bytes) : Bytes := path.rtakeWhile (· ≠ 47)

/-- `is_private_ipv4`: the low byte of the stored address is its first octet. -/
def isPrivateIpv4 (daddrNet : UInt32) : Bool :=
  let o0 := (daddrNet &&& 0xff).toUInt8
  let o1 := ((daddrNet >>> 8) &&& 0xff).toUInt8
  if o0 = 10 then true                               -- 10.0.0.0/8
  else if o0 = 127 then true                         -- 127.0.0.0/8
  else if o0 = 192 ∧ o1 = 168 then true              -- 192.168.0.0/16
  else if o0 = 172 ∧ 16 ≤ o1 ∧ o1 ≤ 31 then true     -- 172.16.0.0/12
  else false

end PqcEdr.Analyzer
