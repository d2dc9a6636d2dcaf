import ZeroProcHot.Efi.Platform
import ZeroProcHot.Interact.Exec
import ZeroProcHot.Tmp.Protocol
import ZeroProcHot.Words.Numeral
import ZeroProcHot.Tmp.Register
import ZeroProcHot.Tmp.Confirmation
import ZeroProcHot.Tmp.Window
import ZeroProcHot.Fast.Agreement
import ZeroProcHot.Tmp.Screen
import ZeroProcHot.Efi.Console
import ZeroProcHot.Tmp.Dismiss
import ZeroProcHot.Efi.Display
import ZeroProcHot.MsrEdit.Program
import ZeroProcHot.MsrEdit.Session
import ZeroProcHot.MsrEdit.Marks
import ZeroProcHot.MsrEdit.Keys
import ZeroProcHot.MsrEdit.Library
import ZeroProcHot.MsrEdit.Selection
import ZeroProcHot.MsrEdit.Answer
import ZeroProcHot.Interact.Cells
import ZeroProcHot.Test.Program
import ZeroProcHot.Tmp.Polling
import ZeroProcHot.Test.Hex
import ZeroProcHot.Test.Case
import ZeroProcHot.Interact.Total
import ZeroProcHot.Tmp.Navigation
import ZeroProcHot.Test.Strings
import ZeroProcHot.Interact.Machine
import ZeroProcHot.Interact.Refine
import ZeroProcHot.Efi.Keyboard
import ZeroProcHot.Tmp.Panel
import ZeroProcHot.Tmp.Usage
import ZeroProcHot.Tmp.Ledger
import ZeroProcHot.Interact.Work
import ZeroProcHot.Efi.Tariff
import ZeroProcHot.Tmp.Work
import ZeroProcHot.MsrEdit.Editor
import ZeroProcHot.Interact.Memory
import ZeroProcHot.MsrEdit.Work
import ZeroProcHot.Tmp.Control
import ZeroProcHot.Efi.Terminal
import ZeroProcHot.Fast.Atomic
import ZeroProcHot.MsrEdit.Charset
import ZeroProcHot.MsrEdit.Layout
import ZeroProcHot.Test.Concat
import ZeroProcHot.Tmp.Layout
import ZeroProcHot.T.Print
import ZeroProcHot.Tmp.Picture
