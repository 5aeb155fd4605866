import PasswordManager.Lib.Alike
import PasswordManager.Lib.BinaryRing
import PasswordManager.Lib.CString
import PasswordManager.Lib.Cbc
import PasswordManager.Lib.Feedback
import PasswordManager.Lib.Fuel
import PasswordManager.Lib.Lists
import PasswordManager.Lib.Memory
import PasswordManager.Lib.MerkleDamgard
import PasswordManager.Lib.Nor
import PasswordManager.Lib.Tiles
import PasswordManager.Bytes
import PasswordManager.Md5
import PasswordManager.Md5.Stream
import PasswordManager.Aes.Cipher
import PasswordManager.Aes.Proofs
import PasswordManager.Aes.Statics
import PasswordManager.Aes.Field
import PasswordManager.Aes.Schedule
import PasswordManager.Aes.Memory
import PasswordManager.FlashDriver
import PasswordManager.FlashTrace
import PasswordManager.FlashWrite
import PasswordManager.Sectors
import PasswordManager.Registers
import PasswordManager.Relock
import PasswordManager.Vault.Records
import PasswordManager.Vault.Crypt
import PasswordManager.Vault.Store
import PasswordManager.Vault.TornCommit
import PasswordManager.Vault.History
import PasswordManager.Vault.Frame
import PasswordManager.Vault.Padding
import PasswordManager.Vault.Display
import PasswordManager.Vault.Removal
import PasswordManager.Vault.Resave
import PasswordManager.Vault.Session
import PasswordManager.Vault.Log
import PasswordManager.Vault.Altered
import PasswordManager.Vault.Authorisation
import PasswordManager.Vault.Persistence
import PasswordManager.Vault.Rekey
import PasswordManager.Vault.Loading
import PasswordManager.Vault.Login
import PasswordManager.Vault.MasterKey
import PasswordManager.Vault.Refusal
import PasswordManager.Vault.Bounds
import PasswordManager.Vault.Safe
import PasswordManager.Vault.Shows
import PasswordManager.Vault.SafeRuns
import PasswordManager.Slots
import PasswordManager.Slots.Chip
import PasswordManager.Slots.PowerLoss
import PasswordManager.FileSystem.Header
import PasswordManager.FileSystem.Codec
import PasswordManager.FileSystem.Open
import PasswordManager.FileSystem.Chain
import PasswordManager.FileSystem.Holes
import PasswordManager.FileSystem.Restore
import PasswordManager.FileSystem.Effects
import PasswordManager.FileSystem.Create
import PasswordManager.FileSystem.Run
import PasswordManager.FileSystem.WellFormed
import PasswordManager.FileSystem.Others
import PasswordManager.FileSystem.Lengths
import PasswordManager.FileSystem.Room
import PasswordManager.FileSystem.Lookup
import PasswordManager.FileSystem.Created
import PasswordManager.FileSystem.Directory
import PasswordManager.FileSystem.Clear
import PasswordManager.FileSystem.Buffer
import PasswordManager.FileSystem.PowerLoss
import PasswordManager.Sharing
