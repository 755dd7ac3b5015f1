import Nidhugg.Library.Youngest
import Nidhugg.Model.Basic
import Nidhugg.Model.RmwAction

/-! # Store buffers

The stores of a thread that have not reached memory yet, as the trace builder for TSO keeps
them. Newer entries are further to the back. -/

namespace Nidhugg

open Youngest

/-- The range of a load or store instruction. The types that the interpreter loads and stores
are not empty. -/
abbrev AccessRange := { ml : SymAddrSize // 0 < ml.size }

/-- A range together with its bytes. -/
structure SymData where
  ref : AccessRange
  block : Bytes ref.1.size
deriving DecidableEq

/-- A store in the store buffer of a `TSOTraceBuilder`. -/
structure PendingStore where
  ml : SymAddrSize
  /-- The index of the store event. -/
  storeEvent : ℕ
  /-- The last load that took its value from this entry. -/
  lastRowe : Option ℕ
deriving DecidableEq, Repr

namespace PendingStore

/-- The entry from which `do_load` lets a load read early. -/
def rowe? (storeBuffer : List PendingStore) (ml : SymAddrSize) : Option ℕ :=
  youngest? (fun pst => pst.ml.addr = ml.addr) storeBuffer

/-- The store buffer after a load that `do_load` found to read entry `i` early. -/
def setRowe (storeBuffer : List PendingStore) (i prefixIdx : ℕ) : List PendingStore :=
  storeBuffer.modify i fun pst => { pst with lastRowe := some prefixIdx }

end PendingStore

end Nidhugg
