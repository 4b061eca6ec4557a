import Mathlib.Algebra.BigOperators.Group.List.Basic
import Mathlib.Algebra.GroupWithZero.Nat
import Pokyh.Lib.Primitives

/-!
# Lib — Blocks

Blocks of bytes with fields of fixed widths, written one after the other over zeros and read by their places.

* `writes_layout`: **what is written at the places of its fields is the fields in order, each filled up with zeros.**
* `field_layout`: a field of such a block is read at its place.
-/

namespace Pokyh.Lib

def zeros (n : ℕ) : Bytes := List.replicate n 0

/-- Bytes written over a block from a place on. -/
def put (block : Bytes) (place : ℕ) (bytes : Bytes) : Bytes := block.take place ++ (bytes ++ block.drop (place + bytes.length))

/-- The bytes of a block at a place. -/
def fieldAt (block : Bytes) (place width : ℕ) : Bytes := (block.drop place).take width

/-- Fields with their widths. -/
abbrev Fields := List (ℕ × Bytes)

def padded (f : ℕ × Bytes) : Bytes := f.2 ++ zeros (f.1 - f.2.length)

/-- The block that fields make up. -/
def layout (fields : Fields) : Bytes := (fields.map padded).flatten

def widthOf (fields : Fields) : ℕ := (fields.map Prod.fst).sum

/-- No field is wider than it may be. -/
def Fit (fields : Fields) : Prop := ∀ f ∈ fields, f.2.length ≤ f.1

/-- The fields with their places, from the first one's on. -/
def atPlaces (start : ℕ) : Fields → List (ℕ × Bytes)
  | [] => []
  | (width, bytes) :: fields => (start, bytes) :: atPlaces (start + width) fields

/-- Some writes, one after the other. -/
def writes (block : Bytes) (list : List (ℕ × Bytes)) : Bytes := list.foldl (fun block w => put block w.1 w.2) block

theorem length_zeros (n : ℕ) : (zeros n).length = n := List.length_replicate

theorem zeros_add (m n : ℕ) : zeros (m + n) = zeros m ++ zeros n := List.replicate_add m n 0

/-- Nothing written changes nothing. -/
theorem put_nil (block : Bytes) (place : ℕ) : put block place [] = block := by
  rw [put, List.nil_append, List.length_nil, Nat.add_zero, List.take_append_drop]

/-- As many bytes are written over those at a place. -/
theorem put_over {old bytes : Bytes} (h : old.length = bytes.length) (before after : Bytes) :
    put (before ++ (old ++ after)) before.length bytes = before ++ (bytes ++ after) := by
  have hafter : (before ++ (old ++ after)).drop (before.length + bytes.length) = after := by
    rw [← List.append_assoc]
    exact List.drop_left' (by rw [List.length_append, h])
  rw [put, List.take_left, hafter]

theorem length_padded {f : ℕ × Bytes} (h : f.2.length ≤ f.1) : (padded f).length = f.1 := by
  rw [padded, List.length_append, length_zeros]
  omega

theorem length_layout {fields : Fields} (h : Fit fields) : (layout fields).length = widthOf fields := by
  induction fields with
  | nil => rfl
  | cons f fields ih =>
      have hfields := ih fun g hg => h g (List.mem_cons_of_mem _ hg)
      rw [layout] at hfields ⊢
      rw [List.map_cons, List.flatten_cons, List.length_append, hfields, length_padded (h f List.mem_cons_self), widthOf, widthOf,
        List.map_cons, List.sum_cons]

/-- **What is written at the places of its fields is the fields in order.** -/
theorem writes_layout {fields : Fields} (h : Fit fields) (done : Bytes) :
    writes (done ++ zeros (widthOf fields)) (atPlaces done.length fields) = done ++ layout fields := by
  induction fields generalizing done with
  | nil => rfl
  | cons f fields ih =>
      obtain ⟨width, bytes⟩ := f
      have hbytes : bytes.length ≤ width := h _ List.mem_cons_self
      have hwidth : widthOf ((width, bytes) :: fields) = bytes.length + ((width - bytes.length) + widthOf fields) := by
        rw [widthOf, widthOf, List.map_cons, List.sum_cons]
        omega
      have hfirst : put (done ++ zeros (widthOf ((width, bytes) :: fields))) done.length bytes =
          (done ++ padded (width, bytes)) ++ zeros (widthOf fields) := by
        rw [hwidth, zeros_add, put_over (length_zeros _), zeros_add, padded]
        simp only [List.append_assoc]
      have hlength : (done ++ padded (width, bytes)).length = done.length + width := by
        rw [List.length_append, length_padded hbytes]
      have hrest := ih (fun g hg => h g (List.mem_cons_of_mem _ hg)) (done ++ padded (width, bytes))
      rw [hlength] at hrest
      rw [atPlaces, writes, List.foldl_cons, hfirst]
      exact hrest.trans (List.append_assoc _ _ _)

/-- **A field is read at its place.** -/
theorem field_layout {before after : Fields} {f : ℕ × Bytes} (h : Fit (before ++ f :: after)) {place : ℕ} (hplace : widthOf before = place) :
    fieldAt (layout (before ++ f :: after)) place f.1 = padded f := by
  have hbefore : (layout before).length = place :=
    (length_layout fun g hg => h g (List.mem_append_left _ hg)).trans hplace
  have hf := length_padded (h f (List.mem_append_right _ List.mem_cons_self))
  have hparts : layout (before ++ f :: after) = layout before ++ (padded f ++ layout after) := by
    rw [layout, List.map_append, List.flatten_append, List.map_cons, List.flatten_cons]
    rfl
  rw [hparts, fieldAt, List.drop_left' hbefore, List.take_left' hf]

theorem field_index {fields : Fields} (h : Fit fields) {i : ℕ} {f : ℕ × Bytes} (hi : fields[i]? = some f) {place : ℕ}
    (hplace : widthOf (fields.take i) = place) : fieldAt (layout fields) place f.1 = padded f := by
  obtain ⟨hlt, hget⟩ := List.getElem?_eq_some_iff.mp hi
  have hparts : fields.take i ++ f :: fields.drop (i + 1) = fields := by
    rw [← hget, List.getElem_cons_drop, List.take_append_drop]
  rw [← hparts] at h
  have hfield := field_layout h hplace
  rwa [hparts] at hfield

end Pokyh.Lib
