import Nidhugg.Model.SymEv

/-! # Outcomes of compare-exchanges

The kind that a compare-exchange has when it finds some content. -/

namespace Nidhugg.SymEv

/-- A compare-exchange with its outcome on the content of its location. -/
def outcome (content : SymAddrSize → List Byte) : SymEv → SymEv
  | .cmpXhg addr w (some expected) | .cmpXhgFail addr w (some expected) =>
      if expected.val = content addr then .cmpXhg addr w (some expected)
      else .cmpXhgFail addr w (some expected)
  | e => e

end Nidhugg.SymEv
