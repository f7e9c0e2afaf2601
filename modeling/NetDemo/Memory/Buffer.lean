import NetDemo.Foundation.Heap
import NetDemo.Foundation.Word

/-! `Buffer` of WinHttpServer: one block of the heap, the end of the live bytes and the size of the
block. The cells of a block are of any type, so that a run can also be followed with tagged bytes. -/

namespace NetDemo.Memory
open Foundation

/-- `(UINT)ceil(nSize / 1024.0) * 1024`; a `double` holds every quotient of a `UINT` by 1024. -/
def roundUp (nSize : ℕ) : ℕ := uint ((nSize + 1023) / 1024 * 1024 : ℕ)

structure Buffer where
  m_pBegin : Ptr
  /-- The distance of the pointer `m_pEnd` from `m_pBegin`. -/
  m_pEnd : ℤ
  m_nSize : ℕ
deriving DecidableEq

section
variable {α : Type}

def copyMemory (h : Heap α) (dst : Ptr) (dstOff : ℤ) (src : Ptr) (srcOff : ℤ) (n : ℕ) :
    Option (Heap α) :=
  (h.load src srcOff n).bind (h.store dst dstOff)

def moveMemory (h : Heap α) (p : Ptr) (dstOff srcOff : ℤ) (n : ℕ) : Option (Heap α) :=
  copyMemory h p dstOff p srcOff n

/-- Fresh pages are zero; a request of no bytes answers `NULL`. -/
def virtualAlloc [Inhabited α] (h : Heap α) (n : ℕ) : Heap α × Ptr :=
  if n = 0 then (h, none) else (h.alloc (List.replicate n default), some h.next)

end

namespace Buffer

def new : Buffer := ⟨none, 0, 0⟩

def copyConstructor (buf : Buffer) : Buffer := ⟨buf.m_pBegin, buf.m_pEnd, buf.m_nSize⟩

def getMemSize (b : Buffer) : ℕ := b.m_nSize

/-- The difference goes through an `int` back to `UINT`, so it is taken modulo 2^32. -/
def getBufferLen (b : Buffer) : ℕ := if b.m_pBegin = none then 0 else uint b.m_pEnd

section
variable {α : Type}

def destroy (h : Heap α) (b : Buffer) : Option (Heap α) := h.release b.m_pBegin

variable [Inhabited α]

/-- The common tail of `reallocateBuffer` and `deallocateBuffer`. -/
def moveTo (h : Heap α) (b : Buffer) (nNewSize : ℕ) : Option (Heap α × Buffer × ℕ) := do
  let (h, pNewBuffer) := virtualAlloc h nNewSize
  let nBufferLen := b.getBufferLen
  let h ← copyMemory h pNewBuffer 0 b.m_pBegin 0 nBufferLen
  let h ← h.release b.m_pBegin
  return (h, ⟨pNewBuffer, nBufferLen, nNewSize⟩, nNewSize)

def reallocateBuffer (h : Heap α) (b : Buffer) (nSize : ℕ) : Option (Heap α × Buffer × ℕ) :=
  if nSize < b.getMemSize then some (h, b, 0) else moveTo h b (roundUp nSize)

def deallocateBuffer (h : Heap α) (b : Buffer) (nSize : ℕ) : Option (Heap α × Buffer × ℕ) :=
  if nSize < b.getBufferLen then some (h, b, 0)
  -- A smaller block would do, and it is not taken.
  else if roundUp nSize < b.getMemSize then some (h, b, 0)
  else moveTo h b (roundUp nSize)

def clear (h : Heap α) (b : Buffer) : Option (Heap α × Buffer) := do
  let b := { b with m_pEnd := 0 }
  -- The live bytes are gone before the size of the block is compared.
  let (h, b, _) ← deallocateBuffer h b 1024
  return (h, b)

/-- The shift of the whole block that `remove` and `read` share. -/
def consume (h : Heap α) (b : Buffer) (nSize : ℕ) : Option (Heap α × Buffer) :=
  if nSize = 0 then some (h, b) else do
    let h ← moveMemory h b.m_pBegin 0 nSize (b.getMemSize - nSize)
    return (h, { b with m_pEnd := b.m_pEnd - nSize })

def remove (h : Heap α) (b : Buffer) (nSize : ℕ) : Option (Heap α × Buffer × ℕ) :=
  if b.getMemSize < nSize then some (h, b, 0) else do
    let nSize := if b.getBufferLen < nSize then b.getBufferLen else nSize
    let (h, b) ← consume h b nSize
    let (h, b, _) ← deallocateBuffer h b b.getBufferLen
    return (h, b, nSize)

/-- The last component is what `CopyMemory(pData, m_pBegin, nSize)` left at `pData`. -/
def read (h : Heap α) (b : Buffer) (nSize : ℕ) : Option (Heap α × Buffer × ℕ × List α) :=
  if b.getMemSize < nSize then some (h, b, 0, []) else do
    let nSize := if b.getBufferLen < nSize then b.getBufferLen else nSize
    let pData ← h.load b.m_pBegin 0 nSize
    let (h, b) ← consume h b nSize
    let (h, b, _) ← deallocateBuffer h b b.getBufferLen
    return (h, b, nSize, pData)

def write (h : Heap α) (b : Buffer) (pData : List α) : Option (Heap α × Buffer × ℕ) := do
  let nSize := pData.length
  let (h, b, _) ← reallocateBuffer h b (uint (nSize + b.getBufferLen))
  let h ← h.store b.m_pBegin b.m_pEnd pData
  return (h, { b with m_pEnd := b.m_pEnd + nSize }, nSize)

def insert (h : Heap α) (b : Buffer) (pData : List α) : Option (Heap α × Buffer × ℕ) := do
  let nSize := pData.length
  let (h, b, _) ← reallocateBuffer h b (uint (nSize + b.getBufferLen))
  -- Not only the live bytes are moved: what the new ones push out of the block is lost.
  let h ← moveMemory h b.m_pBegin nSize 0 (uint (b.getMemSize - nSize))
  let h ← h.store b.m_pBegin 0 pData
  return (h, { b with m_pEnd := b.m_pEnd + nSize }, nSize)

def copy (h : Heap α) (b buf : Buffer) : Option (Heap α × Buffer) := do
  let nReSize := int32 buf.getMemSize
  let nSize := int32 buf.getBufferLen
  let (h, b) ← clear h b
  let (h, b, _) ← reallocateBuffer h b (uint nReSize)
  let b := { b with m_pEnd := nSize }
  -- `getBufferLen` is called once more.
  let h ← copyMemory h b.m_pBegin 0 buf.m_pBegin 0 buf.getBufferLen
  return (h, b)

end
end Buffer
end NetDemo.Memory
