import Cron.Number.Double

namespace Cron.Double

-- The number nearest to `n / den`; `zeroNegative` tells which zero stands for nothing.
def ofFraction (zeroNegative : Bool) (n : Int) (den : Nat) : Double :=
  if n = 0 then finite zeroNegative 0 minExponent else ofRatio (decide (n < 0)) n.natAbs den

def signed (negative : Bool) (n : Nat) : Int := if negative then -n else n

def add : Double → Double → Double
  | finite s m e, finite t n f =>
    let (a, b) := ratio m e
    let (c, d) := ratio n f
    ofFraction (s && t) (signed s a * d + signed t c * b) (b * d)
  | nan, _ | _, nan => nan
  | infinite s, infinite t => if s = t then infinite s else nan
  | infinite s, finite .. | finite .., infinite s => infinite s

def mul : Double → Double → Double
  | finite s m e, finite t n f =>
    let (a, b) := ratio m e
    let (c, d) := ratio n f
    ofRatio (s != t) (a * c) (b * d)
  | nan, _ | _, nan => nan
  | infinite s, infinite t => infinite (s != t)
  | infinite s, finite t m _ | finite t m _, infinite s => if m = 0 then nan else infinite (s != t)

def opposite : Double → Double
  | nan => nan
  | infinite negative => infinite !negative
  | finite negative m e => finite (!negative) m e

end Cron.Double
