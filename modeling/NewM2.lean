import NewM2.Gc.Run
import NewM2.Gc.Accounting
import NewM2.Gc.Exact
import NewM2.Gc.Finalizer
import NewM2.Sema.Dispatch
import NewM2.Ir.ForLoop
import NewM2.Ir.LinkNames
import NewM2.Cfg.Control
import NewM2.Winapi.Ordinals
import NewM2.Winapi.FieldArray
import NewM2.Sema.Symcache
import NewM2.Loader.TopoSort
import NewM2.Loader.Win32Finder
import NewM2.M2Heap.Run
import NewM2.M2Heap.Validate
import NewM2.Sema.Compatible
import NewM2.Ir.Calls
import NewM2.Codegen.Layout
import NewM2.Syntax.Expr
import NewM2.Sema.Constant
import NewM2.Sema.ConstSets
import NewM2.Sema.ConstOverflow
import NewM2.Sema.ScopeConsts
import NewM2.Ir.Index
import NewM2.Ir.SetOps
import NewM2.Sema.Completes
import NewM2.Sema.ResolveOrder
import NewM2.Ir.TypeInfo
import NewM2.Ir.DefiniteReturn
import NewM2.Ir.CaseDispatch
import NewM2.Codegen.Aggregate
import NewM2.Sema.Signature
import NewM2.Sema.VarArg
import NewM2.Sema.ReadOnly
import NewM2.Ir.OpenArray
import NewM2.Com.Balance
import NewM2.Lexer.Numeral
import NewM2.Lexer.Comments
import NewM2.Lexer.Branches
import NewM2.Runtime.HeapGuard
import NewM2.Runtime.Exceptions
import NewM2.Runtime.TextFile
import NewM2.Sema.Leaks
import NewM2.Sema.Dangling
import NewM2.Runtime.BitOps
import NewM2.Runtime.Rtti
import NewM2.Runtime.SysClock
import NewM2.Winrt.Money
import NewM2.Winrt.Decimal
import NewM2.Winrt.BigInt.Kernels
import NewM2.Winrt.BigInt.Rep
import NewM2.Winrt.BigInt.Magnitude
import NewM2.Winrt.BigInt.Arith
import NewM2.Winrt.BigInt.Division
import NewM2.Winrt.BigInt.Handles
import NewM2.Winrt.BigInt.PowMod
import NewM2.Winrt.BigInt.Text
import NewM2.Winrt.BigRat
import NewM2.Winrt.DecimalText
import NewM2.Lib.Chars
import NewM2.Lib.Search
import NewM2.Lib.Pieces
import NewM2.Lib.Output
import NewM2.Lib.Digits
import NewM2.Iso.Strings
import NewM2.Iso.Compare
import NewM2.Winrt.MoneyText
import NewM2.Winrt.StrUtil
import NewM2.Winrt.ExStrings
import NewM2.Winrt.Conversions
import NewM2.Winrt.FormatString
import NewM2.Lib.Sequence
import NewM2.Winrt.SortLib.Swapping
import NewM2.Winrt.SortLib.Insertion
import NewM2.Winrt.SortLib.Merge
import NewM2.Winrt.SortLib.Sorts
import NewM2.Util.TextRope.Nodes
import NewM2.Util.TextRope.Queries
import NewM2.Util.TextRope.Editing
import NewM2.Util.TextRope.Balance
import NewM2.Util.TextRope.Ropes
import NewM2.Lib.Crc
import NewM2.Winrt.GenCRC
import NewM2.Lib.OpenArray
import NewM2.Lib.Cursor
import NewM2.Lib.Wtf8
import NewM2.Winrt.Utf8
import NewM2.Winrt.Base64
import NewM2.Winrt.Hex
import NewM2.Lib.Scan
import NewM2.Winrt.Conversions.Reading
import NewM2.Winrt.TimeFunc
import NewM2.Winrt.TimeOrder
import NewM2.Winrt.WavFile
import NewM2.Lib.Vlq
import NewM2.Winrt.SmfFile
import NewM2.Winrt.Abc.Voices
import NewM2.Lib.Blocks
import NewM2.Winrt.StrBuf
import NewM2.Ui.PaneLayout
import NewM2.Winrt.WavFile.Samples
import NewM2.Ui.Ptcl.Substitution
import NewM2.Ui.Ptcl.Interp
import NewM2.Ui.Ptcl.Consistent
import NewM2.Ui.Ptcl.Arguments
import NewM2.Ui.Ptcl.Reached
import NewM2.Winrt.Growable
