import MBFGraph.Lib.Records
import MBFGraph.Format.FormatUtils

/-!
# Files of weighted edges

The compact type 1 format is fixed in four places: the record layout of the format class, the
`struct` of the converters, the packed struct of the generators and the reader of the matrix market
tool. The last three agree on records of 12 bytes; the format class has a gap of one id before the
weight and reads records of 16.
-/

namespace MBFGraph

open ByteBits Groups Overwrite Records

/-- `weight_t` with `COMPACT_GRAPH`: the bit pattern of a `float`. -/
abbrev WeightT := BitVec 32

/-- An edge as the writers and the readers of a weighted file have it. -/
structure WeightTriple where
  src : VertexT
  dst : VertexT
  weight : WeightT
  deriving DecidableEq, Repr, Inhabited

namespace Type1

/-- `sizeof(vertex_t)` with `COMPACT_GRAPH`. -/
def sizeofVertexT : Nat := 4

/-- `sizeof(weight_t)` with `COMPACT_GRAPH`. -/
def sizeofWeightT : Nat := 4

/-- `split_size_bytes` (`type_1.hpp:30`). -/
def splitSizeBytes : Nat := 2 * sizeofVertexT + sizeofVertexT + sizeofWeightT

/-- `read_edge` with a weight (`type_1.hpp:41`). -/
def readEdge (buffer : List Byte) : WeightTriple where
  src := load 32 buffer 0
  dst := load 32 buffer sizeofVertexT
  weight := load 32 buffer (3 * sizeofVertexT)

/-- `write_edge` (`type_1.hpp:50`). -/
def writeEdge (buffer : List Byte) (edge : WeightTriple) : List Byte :=
  let withSrc := overwrite buffer 0 (bytesOf sizeofVertexT edge.src)
  let withDst := overwrite withSrc sizeofVertexT (bytesOf sizeofVertexT edge.dst)
  overwrite withDst (3 * sizeofVertexT) (bytesOf sizeofWeightT edge.weight)

/-- `split_key` (`type_1.hpp:77`). -/
def splitKey (buffer : List Byte) (jump : Nat) : Nat := (load 32 buffer 0 >>> jump).toNat

/-- A file read as consecutive records of the format class. -/
def readRecords (file : List Byte) : List WeightTriple :=
  (fullGroups splitSizeBytes file).map readEdge

/-- The record type of the drivers, from the bytes of a record. -/
def decode (buffer : List Byte) : WeightedEdge where
  src := load 32 buffer 0
  dst := load 32 buffer sizeofVertexT
  gap := load 32 buffer (2 * sizeofVertexT)
  value := load 32 buffer (3 * sizeofVertexT)

/-- `struct.pack` in native mode (`'@'`): every field starts at a multiple of its size. -/
def structPack (fields : List (List Byte)) : List Byte :=
  fields.foldl (fun out field =>
    out ++ List.replicate ((field.length - out.length % field.length) % field.length) 0 ++ field) []

/-- `struct.Struct('@IIf').pack` of the converters (`snap2type_1.py:21`). -/
def packIIf (edge : WeightTriple) : List Byte :=
  structPack [bytesOf 4 edge.src, bytesOf 4 edge.dst, bytesOf 4 edge.weight]

/-- The file of a converter: one `outfile.write(s.pack(*vector))` for each edge. -/
def convertedFile (edges : List WeightTriple) : List Byte := edges.flatMap packIIf

/-- `edge_struct` with `WEIGHT`, 32 bit ids and values (`generators/output.h:30`): packed, so the
fields follow each other. -/
def edgeStruct (edge : WeightTriple) : List Byte :=
  bytesOf 4 edge.src ++ bytesOf 4 edge.dst ++ bytesOf 4 edge.weight

/-- The file of a generator, its edges in the order in which the buffers are flushed. -/
def generatedFile (edges : List WeightTriple) : List Byte := edges.flatMap edgeStruct

/-- The reader of `type1_to_matrix_market.rb:19`, before it adds one to the ids. -/
def readMatrixMarket (file : List Byte) : List WeightTriple :=
  (fullGroups 12 file).map fun record => ⟨load 32 record 0, load 32 record 4, load 32 record 8⟩

/-- Both readings of the record agree with the format class of the drivers. -/
theorem type1_decode (buffer : List Byte) (jump : Nat) :
    type1.splitSizeBytes = splitSizeBytes ∧
      type1.readEdge (decode buffer) = ((readEdge buffer).src, (readEdge buffer).dst) ∧
      type1.splitKey (decode buffer) jump = splitKey buffer jump ∧
      (decode buffer).value = (readEdge buffer).weight :=
  ⟨rfl, rfl, rfl, rfl⟩

/-- What `write_edge` puts into a record, `read_edge` gets back. -/
theorem readEdge_writeEdge (buffer : List Byte) (edge : WeightTriple) :
    readEdge (writeEdge buffer edge) = edge := by
  have src : load 32 (writeEdge buffer edge) 0 = edge.src := by
    unfold writeEdge
    rw [load_overwrite_of_disjoint (Or.inl (by decide)),
      load_overwrite_of_disjoint (Or.inl (by decide)), load_overwrite_self (by decide)]
  have dst : load 32 (writeEdge buffer edge) sizeofVertexT = edge.dst := by
    unfold writeEdge
    rw [load_overwrite_of_disjoint (Or.inl (by decide)), load_overwrite_self (by decide)]
  have weight : load 32 (writeEdge buffer edge) (3 * sizeofVertexT) = edge.weight :=
    load_overwrite_self (by decide) _ _ _
  unfold readEdge
  rw [src, dst, weight]

/-- A file of records of the format class itself is read back. -/
theorem readRecords_writeEdge (edges : List WeightTriple) :
    readRecords (edges.flatMap (writeEdge (List.replicate splitSizeBytes 0))) = edges := by
  have sizes : ∀ edge, (writeEdge (List.replicate splitSizeBytes 0) edge).length = splitSizeBytes := by
    intro edge
    unfold writeEdge
    rw [length_overwrite_inside, length_overwrite_inside, length_overwrite_inside,
      List.length_replicate]
    all_goals simp [splitSizeBytes, sizeofVertexT, sizeofWeightT, length_overwrite_inside]
  unfold readRecords
  rw [fullGroups_flatMap (by decide) sizes, List.map_map]
  exact List.map_id'' (readEdge_writeEdge _) edges

/-- Fields of one size leave no padding. -/
theorem structPack_eq_flatten {n : Nat} {fields : List (List Byte)}
    (sizes : ∀ field ∈ fields, field.length = n) : structPack fields = fields.flatten := by
  have packed : ∀ out : List Byte, out.length % n = 0 →
      fields.foldl (fun out field => out ++
        List.replicate ((field.length - out.length % field.length) % field.length) 0 ++ field) out =
      out ++ fields.flatten := by
    induction fields with
    | nil => simp
    | cons field fields ih =>
      intro out aligned
      have same := sizes field List.mem_cons_self
      have padding : (field.length - out.length % field.length) % field.length = 0 := by
        rw [same, aligned, Nat.sub_zero, Nat.mod_self]
      have next : (out ++ field).length % n = 0 := by
        rw [List.length_append, same, Nat.add_mod_right, aligned]
      rw [List.foldl_cons, padding, List.replicate_zero, List.append_nil,
        ih (fun field member => sizes field (List.mem_cons_of_mem _ member)) _ next,
        List.flatten_cons, List.append_assoc]
  exact packed [] (Nat.zero_mod n)

/-- The converters write what the generators write. -/
theorem packIIf_eq_edgeStruct (edge : WeightTriple) : packIIf edge = edgeStruct edge := by
  unfold packIIf
  rw [structPack_eq_flatten (n := 4)]
  · rw [List.flatten_cons, List.flatten_cons, List.flatten_singleton, ← List.append_assoc]
    rfl
  · intro field member
    simp only [List.mem_cons, List.not_mem_nil, or_false] at member
    rcases member with rfl | rfl | rfl <;> exact length_bytesOf 4 _

theorem convertedFile_eq (edges : List WeightTriple) : convertedFile edges = generatedFile edges :=
  List.flatMap_congr fun edge _ => packIIf_eq_edgeStruct edge

@[simp] theorem length_edgeStruct (edge : WeightTriple) : (edgeStruct edge).length = 12 := by
  simp [edgeStruct]

theorem length_generatedFile (edges : List WeightTriple) :
    (generatedFile edges).length = edges.length * 12 :=
  length_flatMap_const length_edgeStruct edges

/-- Word `c` of a record of three words. -/
def field (edge : WeightTriple) : Nat → BitVec 32
  | 0 => edge.src
  | 1 => edge.dst
  | _ => edge.weight

theorem load_edgeStruct (edge : WeightTriple) {c : Nat} (inside : c < 3) :
    load 32 (edgeStruct edge) (4 * c) = field edge c := by
  have src := load_bytesOf (n := 4) (by decide) []
    (bytesOf 4 edge.dst ++ bytesOf 4 edge.weight) edge.src
  have dst := load_bytesOf (n := 4) (by decide) (bytesOf 4 edge.src) (bytesOf 4 edge.weight)
    edge.dst
  have weight := load_bytesOf (n := 4) (by decide) (bytesOf 4 edge.src ++ bytesOf 4 edge.dst) []
    edge.weight
  rw [List.nil_append, ← List.append_assoc] at src
  rw [length_bytesOf, ← List.append_assoc] at dst
  rw [List.append_nil, List.length_append, length_bytesOf, length_bytesOf] at weight
  match c, inside with
  | 0, _ => exact src
  | 1, _ => exact dst
  | 2, _ => exact weight

/-- A reader of 12 byte records gets the edges back. -/
theorem readMatrixMarket_generatedFile (edges : List WeightTriple) :
    readMatrixMarket (generatedFile edges) = edges := by
  unfold readMatrixMarket generatedFile
  rw [fullGroups_flatMap (by decide) length_edgeStruct, List.map_map]
  refine List.map_id'' (fun edge => ?_) edges
  have src := load_edgeStruct edge (show 0 < 3 by decide)
  have dst := load_edgeStruct edge (show 1 < 3 by decide)
  have weight := load_edgeStruct edge (show 2 < 3 by decide)
  show (⟨_, _, _⟩ : WeightTriple) = edge
  rw [show (0 : Nat) = 4 * 0 from rfl, src]
  rw [show (8 : Nat) = 4 * 2 from rfl, weight]
  rw [show (4 : Nat) = 4 * 1 from rfl, dst]
  rfl

/-- Word `j` of the file of a generator. -/
theorem load_generatedFile {edges : List WeightTriple} {j : Nat} {edge : WeightTriple}
    (found : edges[j / 3]? = some edge) :
    load 32 (generatedFile edges) (4 * j) = field edge (j % 3) := by
  have column : j % 3 < 3 := Nat.mod_lt j (by decide)
  have address : 4 * j = j / 3 * 12 + 4 * (j % 3) := by omega
  rw [address]
  unfold generatedFile
  rw [load_flatMap length_edgeStruct found (by omega), load_edgeStruct edge column]

/-- What the format class reads: record `k` has the words `4k`, `4k + 1` and `4k + 3` of a file
that has three words for each edge. -/
theorem getElem?_readRecords_generatedFile {edges : List WeightTriple} {k : Nat}
    (inside : (k + 1) * 16 ≤ edges.length * 12) :
    ∃ a b c, edges[4 * k / 3]? = some a ∧ edges[(4 * k + 1) / 3]? = some b ∧
      edges[(4 * k + 3) / 3]? = some c ∧
      (readRecords (generatedFile edges))[k]? =
        some ⟨field a (k % 3), field b ((k + 1) % 3), field c (k % 3)⟩ := by
  have below : (4 * k + 3) / 3 < edges.length := by omega
  have size : splitSizeBytes = 16 := rfl
  refine ⟨edges[4 * k / 3], edges[(4 * k + 1) / 3], edges[(4 * k + 3) / 3],
    List.getElem?_eq_getElem _, List.getElem?_eq_getElem _, List.getElem?_eq_getElem below, ?_⟩
  have word : ∀ c, c < 4 → ∀ edge, edges[(4 * k + c) / 3]? = some edge →
      load 32 (group splitSizeBytes k (generatedFile edges)) (4 * c) =
        field edge ((4 * k + c) % 3) := by
    intro c inRecord edge found
    rw [load_group (by rw [size]; omega), size, ← load_generatedFile found]
    congr 1
    ring
  have src := word 0 (by decide) _ (List.getElem?_eq_getElem (by omega))
  have dst := word 1 (by decide) _ (List.getElem?_eq_getElem (by omega))
  have weight := word 3 (by decide) _ (List.getElem?_eq_getElem below)
  have wordsSrc : (4 * k + 0) % 3 = k % 3 := by omega
  have wordsDst : (4 * k + 1) % 3 = (k + 1) % 3 := by omega
  have wordsWeight : (4 * k + 3) % 3 = k % 3 := by omega
  rw [wordsSrc] at src
  rw [wordsDst] at dst
  rw [wordsWeight] at weight
  unfold readRecords
  rw [List.getElem?_map, getElem?_fullGroups (by rw [size, length_generatedFile]; omega) (by decide),
    Option.map_some]
  unfold readEdge
  rw [Option.some.injEq, WeightTriple.mk.injEq]
  exact ⟨src, dst, weight⟩

/-- There are fewer records of 16 bytes than edges. -/
theorem length_readRecords_generatedFile (edges : List WeightTriple) :
    (readRecords (generatedFile edges)).length = edges.length * 12 / 16 := by
  unfold readRecords
  rw [List.length_map, length_fullGroups, length_generatedFile]
  rfl

/-- No written list but the empty one is read back. -/
theorem readRecords_written_iff (edges : List WeightTriple) :
    (readRecords (convertedFile edges) = edges ↔ edges = []) ∧
      (readRecords (generatedFile edges) = edges ↔ edges = []) := by
  have generated : readRecords (generatedFile edges) = edges ↔ edges = [] := by
    constructor
    · intro same
      have count := congrArg List.length same
      rw [length_readRecords_generatedFile] at count
      exact List.length_eq_zero_iff.mp (by omega)
    · rintro rfl
      rfl
  rw [convertedFile_eq]
  exact ⟨generated, generated⟩

/-- Two edges of weight 1.0 are read as one record, and its weight is the source of the second. -/
theorem not_readRecords_written :
    readRecords (convertedFile [⟨1#32, 2#32, 0x3F800000#32⟩, ⟨3#32, 4#32, 0x3F800000#32⟩]) =
      [⟨1#32, 2#32, 3#32⟩] ∧
    ¬ ∀ edges, readRecords (convertedFile edges) = edges ∧
      readRecords (generatedFile edges) = edges := by
  refine ⟨by decide +kernel, fun all => ?_⟩
  have count := congrArg List.length
    (all [⟨1#32, 2#32, 0x3F800000#32⟩, ⟨3#32, 4#32, 0x3F800000#32⟩]).2
  rw [length_readRecords_generatedFile] at count
  exact absurd count (by decide)

end Type1

end MBFGraph
