import DeflateAtlas.Proofs.BitSource.View
import DeflateAtlas.Diagnostic
import DeflateAtlas.Main
import DeflateAtlas.Proofs.Huffman.CodeSpace
import DeflateAtlas.Proofs.Huffman.CodeWord
import DeflateAtlas.Proofs.BitSource.Reading
import DeflateAtlas.Proofs.Huffman.Decoding
import DeflateAtlas.Proofs.Deflate.Spelling
import DeflateAtlas.Proofs.Deflate.Tokens
import DeflateAtlas.Proofs.Deflate.Tables
import DeflateAtlas.Proofs.Deflate.Blocks
import DeflateAtlas.Proofs.Deflate.Streams
import DeflateAtlas.Proofs.Puff.Records
import DeflateAtlas.Proofs.Puff.Reading
import DeflateAtlas.Proofs.BitSource.Reachable
import DeflateAtlas.Proofs.Puff.Encoding
import DeflateAtlas.Proofs.Puff.Writing
import DeflateAtlas.Proofs.Locate.LayoutLaw
import DeflateAtlas.Proofs.Locate.Splitting
import DeflateAtlas.Proofs.Locate.Pipeline
import DeflateAtlas.Proofs.Locate.Tiling
import DeflateAtlas.Proofs.Locate.Agreement
import DeflateAtlas.Proofs.Inflate.Reading
import DeflateAtlas.Proofs.Inflate.Codes
import DeflateAtlas.Proofs.Deflate.Expansion
import DeflateAtlas.Proofs.Inflate.Tokens
import DeflateAtlas.Proofs.Inflate.Tables
import DeflateAtlas.Proofs.Inflate.Streams
import DeflateAtlas.Proofs.Puff.Measuring
import DeflateAtlas.Proofs.Puff.Refusing
import DeflateAtlas.Proofs.Container.Measured
import DeflateAtlas.Proofs.Locate.Located
import DeflateAtlas.Proofs.Bytes
import DeflateAtlas.Proofs.Container.ZipScan
import DeflateAtlas.Proofs.Container.Probing
import DeflateAtlas.Proofs.Container.GzipHeader
import DeflateAtlas.Proofs.Container.ZipArchive
import DeflateAtlas.Proofs.Container.GzipMembers
import DeflateAtlas.Proofs.Container.GzipCut
import DeflateAtlas.Proofs.Puff.CutOff
import DeflateAtlas.Proofs.Locate.Acceptance
import DeflateAtlas.Proofs.Locate.Batches
import DeflateAtlas.Proofs.Locate.Conservation
import DeflateAtlas.Proofs.BitSource.Cursor
import DeflateAtlas.Proofs.Huffman.SingleLook
import DeflateAtlas.Proofs.Huffman.Canonical
import DeflateAtlas.Proofs.Stream.Calls
import DeflateAtlas.Proofs.Puff.Calls
import DeflateAtlas.Proofs.Puff.Sections
import DeflateAtlas.Proofs.Demand
import DeflateAtlas.Proofs.Locate.Overflow
import DeflateAtlas.Proofs.Locate.Offending
import DeflateAtlas.Proofs.BitSource.Guarded
import DeflateAtlas.Proofs.Huffman.Guarded
import DeflateAtlas.Proofs.Deflate.Guarded
import DeflateAtlas.Proofs.Puff.Safety
import DeflateAtlas.Proofs.Container.ZlibVerdict
import DeflateAtlas.Proofs.Crc32
import DeflateAtlas.Proofs.Deflate.CodeLengths
import DeflateAtlas.Proofs.Deflate.Retransmission
